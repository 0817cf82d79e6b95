import HtmlPrinter.Proofs.SafeText
import HtmlPrinter.Tag.Basic
import Mathlib.Tactic.ByContra

/-!
# The shape of start tags

A start tag is its tag name, its attributes, each behind a separator, and its end. The two layouts
differ only in the separators, which are made of spaces in both; `startTag_toList` says so. A
written name holds no character that ends a name, and a written value is either the value itself,
without spaces and tag ends in it, or an escaped value between two quotes that it does not hold.
-/

namespace HtmlPrinter

/-- Puts attributes behind each other, each after a separator that depends on how the attribute in
front of it ends. -/
def chain (separator : Option Ending → String) (previous : Option Ending) :
    List AttributeText → String
  | [] => ""
  | attr :: rest => separator previous ++ attr.text ++ chain separator (some attr.ending) rest

/-- Says how the last of some attributes ends, or what stands in front when there are none. -/
def lastEnding (previous : Option Ending) : List AttributeText → Option Ending
  | [] => previous
  | attr :: rest => lastEnding (some attr.ending) rest

private theorem lastEnding_eq_getLast? (previous : Option Ending) (attrs : List AttributeText) :
    lastEnding previous attrs = (attrs.getLast?.map (·.ending)).or previous := by
  induction attrs generalizing previous with
  | nil => rfl
  | cons attr rest ih =>
      rw [lastEnding, ih, List.getLast?_cons]
      cases rest.getLast? <;> rfl

private theorem spaceOut_eq_chain (tight : Bool) (previous : Option Ending)
    (attrs : List AttributeText) : spaceOut tight previous attrs =
      chain (fun ending => if tight && ending == some .quoted then "" else " ") previous attrs := by
  induction attrs generalizing previous with
  | nil => rfl
  | cons attr rest ih => rw [spaceOut, chain, ih]

private theorem stackUp_eq_chain (indent : String) (previous : Option Ending)
    (attrs : List AttributeText) :
    stackUp indent attrs = chain (fun _ => "\n" ++ indent) previous attrs := by
  induction attrs generalizing previous with
  | nil => rfl
  | cons attr rest ih => rw [stackUp, chain, ih (some attr.ending)]

def isNameChar (c : Char) : Bool := !isSpace c && c != '/' && c != '>' && c != '='

def isBareValueChar (c : Char) : Bool := !isSpace c && c != '>'

def isTagChar (c : Char) : Bool := c.isAlphanum || c == '-'

def nameStops : List Char := [' ', '\t', '\n', '\r', '\x0c', '/', '>', '=']

theorem isNameChar_iff {c : Char} :
    isNameChar c = true ↔ isSpace c = false ∧ c ≠ '/' ∧ c ≠ '>' ∧ c ≠ '=' := by
  simp only [isNameChar, Bool.and_eq_true, Bool.not_eq_true', bne_iff_ne, and_assoc]

theorem isBareValueChar_iff {c : Char} :
    isBareValueChar c = true ↔ isSpace c = false ∧ c ≠ '>' := by
  simp only [isBareValueChar, Bool.and_eq_true, Bool.not_eq_true', bne_iff_ne]

private theorem mem_nameStops_of_not_isNameChar {c : Char} (h : ¬ isNameChar c = true) :
    c ∈ nameStops := by
  simp only [isNameChar, isSpace, Bool.and_eq_true, Bool.not_eq_true', bne_iff_ne, ne_eq] at h
  simp only [nameStops, List.mem_cons, List.not_mem_nil, or_false]
  grind

theorem isNameChar_of_isTagChar {c : Char} (h : isTagChar c = true) : isNameChar c = true := by
  by_contra hstop
  have table : nameStops.all (fun d => !isTagChar d) = true := by decide
  have stop := List.all_eq_true.1 table c (mem_nameStops_of_not_isNameChar hstop)
  rw [h] at stop
  cases stop

namespace Config

def separator (cfg : Config) (stacked : Bool) (previous : Option Ending) : String :=
  if stacked then "\n" ++ cfg.customElementIndent
  else if cfg.tightAttributes && previous == some .quoted then "" else " "

def tagEnd (cfg : Config) (closed : Bool) (last : Option Ending) : String :=
  (if closed then cfg.slash last else "") ++ ">"

private theorem layOut_eq_chain (cfg : Config) (custom : Bool) (attrs : List AttributeText) :
    cfg.layOut custom attrs =
      chain (cfg.separator (custom && decide (1 < attrs.length))) none attrs := by
  by_cases stacked : (custom && decide (1 < attrs.length)) = true
  · rw [layOut, if_pos stacked, stackUp_eq_chain _ none, stacked]
    rfl
  · rw [layOut, if_neg stacked, spaceOut_eq_chain, Bool.eq_false_iff.2 stacked]
    rfl

/-- A start tag is its name, its separated attributes, and its end. -/
theorem startTag_eq_chain (cfg : Config) (dialect : Dialect) (e : Element) :
    cfg.startTag dialect e = "<" ++ e.tag ++
      chain (cfg.separator (e.isCustom && decide (1 < (cfg.attributeTexts dialect e).length))) none
        (cfg.attributeTexts dialect e) ++
      cfg.tagEnd (cfg.selfCloses dialect e) (lastEnding none (cfg.attributeTexts dialect e)) := by
  have last : lastEnding none (cfg.attributeTexts dialect e) =
      (cfg.attributeTexts dialect e).getLast?.map (·.ending) := by
    rw [lastEnding_eq_getLast?, Option.or_none]
  rw [startTag, layOut_eq_chain, last, tagEnd]
  simp only [String.append_assoc]

theorem startTag_toList (cfg : Config) (dialect : Dialect) (e : Element) :
    ∃ stacked, (cfg.startTag dialect e).toList =
      '<' :: (e.tag.toList ++ ((chain (cfg.separator stacked) none
        (cfg.attributeTexts dialect e)).toList ++
          (cfg.tagEnd (cfg.selfCloses dialect e)
            (lastEnding none (cfg.attributeTexts dialect e))).toList)) := by
  refine ⟨e.isCustom && decide (1 < (cfg.attributeTexts dialect e).length), ?_⟩
  rw [startTag_eq_chain]
  simp

variable {cfg : Config}

theorem isSpace_of_mem_separator (hindent : ∀ c ∈ cfg.customElementIndent.toList, isSpace c = true)
    {stacked : Bool} {previous : Option Ending} {c : Char}
    (hc : c ∈ (cfg.separator stacked previous).toList) : isSpace c = true := by
  unfold separator at hc
  split at hc
  · rw [String.toList_append, List.mem_append] at hc
    rcases hc with hc | hc
    · have newline : c = '\n' := by simpa using hc
      subst newline
      decide
    · exact hindent c hc
  · split at hc
    · simp at hc
    · have space : c = ' ' := by simpa using hc
      subst space
      decide

theorem separator_ne_empty {stacked : Bool} {previous : Option Ending}
    (h : previous ≠ some .quoted) : cfg.separator stacked previous ≠ "" := by
  unfold separator
  split
  · intro hempty
    have := congrArg String.toList hempty
    simp at this
  · have loose : (cfg.tightAttributes && previous == some .quoted) = false := by
      simp [h]
    rw [loose]
    decide

theorem legible_escaping (hent : cfg.entities = ∅) (place : Context) :
    (cfg.escaping place).entities.Legible := by
  rw [escaping, hent]
  exact Entities.legible_empty

theorem decode_escaped (hent : cfg.entities = ∅) (place : Context) (s : String) :
    Entities.decode ∅ ((cfg.escaping place).escaped s).toList = s.toList := by
  have decoded : cfg.entities.decode ((cfg.escaping place).escaped s).toList = s.toList :=
    Escaping.decode_escaped (legible_escaping hent place) s
  rwa [hent] at decoded

theorem not_mem_escaped_of_required (hent : cfg.entities = ∅) {place : Context} {c : Char}
    (hc : c ∈ place.required) (hamp : c ≠ '&') (s : String) :
    c ∉ ((cfg.escaping place).escaped s).toList := by
  have avoided : cfg.entities.NamesAvoid c := by
    rw [hent]
    exact Entities.namesAvoid_empty c
  exact not_mem_escaped_of_forbidden avoided (Context.mem_forbidden.2 (.inl hc)) hamp s

theorem isNameChar_of_mem_escaped (hent : cfg.entities = ∅) {name : String} {c : Char}
    (hc : c ∈ ((cfg.escaping .attributeName).escaped name).toList) : isNameChar c = true := by
  by_contra hstop
  have table : nameStops.all (fun d =>
      Context.attributeName.required.contains d && d != '&') = true := by
    decide
  have stop := List.all_eq_true.1 table c (mem_nameStops_of_not_isNameChar hstop)
  rw [Bool.and_eq_true, List.contains_iff_mem, bne_iff_ne] at stop
  exact not_mem_escaped_of_required hent stop.1 stop.2 name hc

theorem quote_not_mem_escaped (hent : cfg.entities = ∅) (value : String) :
    cfg.quote.char ∉ ((cfg.escaping cfg.quote.context).escaped value).toList := by
  have table : ∀ quote : Quote, quote.char ∈ quote.context.required ∧ quote.char ≠ '&' := by
    intro quote
    cases quote <;> decide
  exact not_mem_escaped_of_required hent (table _).1 (table _).2 value

theorem not_mem_of_leavesUnquoted {value : String} (h : cfg.leavesUnquoted value = true) {c : Char}
    (hc : c ∈ cfg.forbidden .unquoted) : c ∉ value.toList := by
  intro hmem
  rw [leavesUnquoted, Bool.and_eq_true] at h
  have plain : ∀ c ∈ value.toList, (cfg.escaping .unquoted).escapes c = false := by
    simpa [Escaping.needsEscape] using h.2
  have := plain c hmem
  rw [escapes_escaping_iff.2 hc] at this
  cases this

/-- A value without quotes is written as it is, and holds nothing that would be read otherwise. -/
theorem valueText_of_leavesUnquoted {value : String} (h : cfg.leavesUnquoted value = true) :
    cfg.valueText value = ⟨value, .unquoted⟩ ∧ '&' ∉ value.toList ∧
      (∀ c ∈ value.toList, isBareValueChar c = true) ∧
      ∃ c rest, value.toList = c :: rest ∧ c ≠ '"' ∧ c ≠ '\x27' := by
  have split := h
  rw [leavesUnquoted, Bool.and_eq_true, Bool.and_eq_true] at split
  obtain ⟨⟨-, hhead⟩, -⟩ := split
  have absent : ∀ d ∈ Context.unquoted.required, d ∉ value.toList := fun d hd =>
    not_mem_of_leavesUnquoted h (Context.mem_forbidden.2 (.inl hd))
  refine ⟨by rw [valueText, if_pos h], absent '&' (by decide), ?_, ?_⟩
  · intro c hc
    by_contra hstop
    have listed : c ∈ Context.unquoted.required := by
      simp only [isBareValueChar, isSpace, Bool.and_eq_true, Bool.not_eq_true', bne_iff_ne,
        ne_eq] at hstop
      simp only [Context.required, List.mem_cons, List.not_mem_nil, or_false]
      grind
    exact absent c listed hc
  · cases hvalue : value.toList with
    | nil => simp [hvalue] at hhead
    | cons c rest =>
        rw [hvalue] at hhead
        simp only [List.head?_cons, Option.any_some, Bool.and_eq_true, bne_iff_ne] at hhead
        exact ⟨c, rest, rfl, hhead⟩

theorem valueText_of_not_leavesUnquoted {value : String} (h : ¬ cfg.leavesUnquoted value = true) :
    (cfg.valueText value).ending = .quoted ∧ (cfg.valueText value).text.toList =
      cfg.quote.char :: (((cfg.escaping cfg.quote.context).escaped value).toList ++
        [cfg.quote.char]) := by
  rw [valueText, if_neg h]
  simp [text_escape]

theorem assignment_toList (name value : String) :
    (cfg.assignment name value).text.toList =
      ((cfg.escaping .attributeName).escaped name).toList ++
        '=' :: (cfg.valueText value).text.toList := by
  simp [assignment, text_escape]

end Config

end HtmlPrinter
