import HtmlPrinter.Proofs.TagShape

/-!
# Quotes in start tags

Some readers take a backtick for a quote, or stop at a NUL. Unless dangerous characters are
allowed, neither of them gets into a start tag, and the quote that is not in use does not either:
names, values and lists are escaped for the place they are in, and a value goes without quotes only
if there is nothing to escape in it. The quotes in use are the two around each quoted value, and
`count_startTag` finds no others, whatever the attributes are.
-/

namespace HtmlPrinter

/-- Lists the characters that some readers take for the end of an attribute. -/
def breakers : List Char := ['"', '\x27', '\x60', '\x00']

/-- Lists what a start tag puts around names and values, quotes aside. -/
def tagMarks : List Char := ['<', '=', '\n', ' ', '/', '>']

private theorem not_mem_tagMarks {d : Char} (hd : d ∈ breakers) : d ∉ tagMarks := by
  have table : breakers.all (fun d => !tagMarks.contains d) = true := by decide
  simpa using List.all_eq_true.1 table d hd

/-- Says that an attribute holds a quote only where it is a delimiter: right behind the equals sign
and at the end of a quoted value, and nowhere in an attribute that ends otherwise. -/
def AttributeText.IsDelimited (quote : Char) (attr : AttributeText) : Prop :=
  if attr.ending = .quoted then
    ∃ name value, attr.text.toList = name ++ '=' :: quote :: (value ++ [quote]) ∧
      quote ∉ name ∧ quote ∉ value
  else quote ∉ attr.text.toList

namespace Config

/-- Says that a configuration lets nothing that breaks an attribute into a start tag: it is
escaped, and neither the names of references nor the indent hold it. -/
structure IsHardened (cfg : Config) : Prop where
  refused : cfg.allowDangerousCharacters = false
  names : ∀ d ∈ breakers, cfg.entities.NamesAvoid d
  indent : ∀ d ∈ breakers, d ∉ cfg.customElementIndent.toList

/-- Counts how often a character delimits an attribute, by the way the attribute ends. -/
def delimiters (cfg : Config) (d : Char) (ending : Ending) : Nat :=
  if cfg.quote.char = d ∧ ending = .quoted then 2 else 0

private theorem bareName_or_assignment {cfg : Config} {dialect : Dialect} {name : String}
    {value : Value} {attr : AttributeText} (h : cfg.attributeText? dialect name value = some attr) :
    (∃ bare, attr = cfg.bareName bare) ∨ ∃ content, attr = cfg.assignment name content := by
  cases value with
  | flag on =>
      cases on with
      | false => cases h
      | true =>
          obtain rfl := Option.some_inj.1 h
          unfold flagText
          split
          · exact .inl ⟨_, rfl⟩
          · split
            · split
              · exact .inl ⟨_, rfl⟩
              · exact .inr ⟨_, rfl⟩
            · exact .inr ⟨_, rfl⟩
  | text content => exact .inr ⟨_, (Option.some_inj.1 h).symm⟩
  | spaceList tokens => exact .inr ⟨_, (Option.some_inj.1 h).symm⟩
  | commaList tokens => exact .inr ⟨_, (Option.some_inj.1 h).symm⟩

variable {cfg : Config} {d : Char}

namespace IsHardened

theorem mem_forbidden (h : cfg.IsHardened) (hd : d ∈ breakers) {place : Context}
    (hplace : place ≠ .text) : d ∈ cfg.forbidden place := by
  have table : Context.all.all (fun place => place == .text ||
      breakers.all place.dangerous.contains) = true := by decide
  have dangerous : breakers.all place.dangerous.contains = true := by
    simpa [hplace] using List.all_eq_true.1 table place (Context.mem_all place)
  have listed : d ∈ place.dangerous := by simpa using List.all_eq_true.1 dangerous d hd
  exact Context.mem_forbidden.2 (.inr (.inr ⟨h.refused, listed⟩))

theorem not_mem_escaped (h : cfg.IsHardened) (hd : d ∈ breakers) {place : Context}
    (hplace : place ≠ .text) (s : String) : d ∉ ((cfg.escaping place).escaped s).toList := by
  have ampersand : d ≠ '&' := by
    rintro rfl
    exact absurd hd (by decide)
  exact not_mem_escaped_of_forbidden (h.names d hd) (h.mem_forbidden hd hplace) ampersand s

private theorem not_mem_name (h : cfg.IsHardened) (hd : d ∈ breakers) (name : String) :
    d ∉ ((cfg.escaping .attributeName).escaped name).toList :=
  h.not_mem_escaped hd (by decide) name

private theorem not_mem_bareName (h : cfg.IsHardened) (hd : d ∈ breakers) (name : String) :
    d ∉ (cfg.bareName name).text.toList := by
  rw [bareName, text_escape]
  exact h.not_mem_name hd name

private theorem not_mem_separator (h : cfg.IsHardened) (hd : d ∈ breakers) (stacked : Bool)
    (previous : Option Ending) : d ∉ (cfg.separator stacked previous).toList := by
  have marks := not_mem_tagMarks hd
  simp only [tagMarks, List.mem_cons, not_or] at marks
  unfold separator
  split
  · simp [marks, h.indent d hd]
  · split <;> simp [marks]

private theorem count_valueText (h : cfg.IsHardened) (hd : d ∈ breakers) (value : String) :
    (cfg.valueText value).text.toList.count d =
      cfg.delimiters d (cfg.valueText value).ending := by
  by_cases hplain : cfg.leavesUnquoted value = true
  · have absent : d ∉ value.toList :=
      not_mem_of_leavesUnquoted hplain (h.mem_forbidden hd (by decide))
    rw [(valueText_of_leavesUnquoted hplain).1, List.count_eq_zero.2 absent]
    simp [delimiters]
  · obtain ⟨ending, text⟩ := valueText_of_not_leavesUnquoted hplain
    have context : cfg.quote.context ≠ .text := by cases cfg.quote <;> decide
    have inner := List.count_eq_zero.2 (h.not_mem_escaped hd context value)
    rw [text, ending, List.count_cons, List.count_append, inner, List.count_singleton]
    by_cases hquote : cfg.quote.char = d <;> simp [delimiters, hquote]

private theorem count_assignment (h : cfg.IsHardened) (hd : d ∈ breakers) (name value : String) :
    (cfg.assignment name value).text.toList.count d =
      cfg.delimiters d (cfg.assignment name value).ending := by
  have equals : '=' ≠ d := by
    rintro rfl
    exact not_mem_tagMarks hd (by decide)
  rw [assignment_toList, List.count_append, List.count_eq_zero.2 (h.not_mem_name hd name),
    List.count_cons_of_ne equals, h.count_valueText hd, Nat.zero_add]
  rfl

private theorem count_attributeText (h : cfg.IsHardened) (hd : d ∈ breakers) {dialect : Dialect}
    {e : Element} {attr : AttributeText} (hattr : attr ∈ cfg.attributeTexts dialect e) :
    attr.text.toList.count d = cfg.delimiters d attr.ending := by
  obtain ⟨entry, -, written⟩ := List.mem_filterMap.1 hattr
  rcases bareName_or_assignment written with ⟨bare, rfl⟩ | ⟨content, rfl⟩
  · rw [List.count_eq_zero.2 (h.not_mem_bareName hd bare)]
    simp [delimiters, bareName]
  · exact h.count_assignment hd entry.1 content

private theorem isDelimited (h : cfg.IsHardened) {dialect : Dialect}
    {e : Element} {attr : AttributeText} (hattr : attr ∈ cfg.attributeTexts dialect e) :
    attr.IsDelimited cfg.quote.char := by
  have quote : cfg.quote.char ∈ breakers := by cases cfg.quote <;> decide
  by_cases hquoted : attr.ending = .quoted
  · obtain ⟨entry, -, written⟩ := List.mem_filterMap.1 hattr
    rw [AttributeText.IsDelimited, if_pos hquoted]
    rcases bareName_or_assignment written with ⟨bare, rfl⟩ | ⟨content, rfl⟩
    · cases hquoted
    · have hplain : ¬ cfg.leavesUnquoted content = true := by
        intro hplain
        rw [assignment, (valueText_of_leavesUnquoted hplain).1] at hquoted
        cases hquoted
      have context : cfg.quote.context ≠ .text := by cases cfg.quote <;> decide
      refine ⟨_, _, ?_, h.not_mem_name quote entry.1, h.not_mem_escaped quote context content⟩
      rw [assignment_toList, (valueText_of_not_leavesUnquoted hplain).2]
  · rw [AttributeText.IsDelimited, if_neg hquoted]
    have none := h.count_attributeText quote hattr
    rw [delimiters, if_neg (fun both => hquoted both.2)] at none
    exact List.count_eq_zero.1 none

end IsHardened

private theorem count_chain {separator : Option Ending → String}
    (hsep : ∀ previous, d ∉ (separator previous).toList) {attrs : List AttributeText}
    (hattrs : ∀ attr ∈ attrs, attr.text.toList.count d = cfg.delimiters d attr.ending)
    (previous : Option Ending) :
    (chain separator previous attrs).toList.count d =
      if cfg.quote.char = d then 2 * attrs.countP (·.ending == .quoted) else 0 := by
  induction attrs generalizing previous with
  | nil => simp [chain]
  | cons attr rest ih =>
      rw [chain, String.toList_append, String.toList_append, List.count_append, List.count_append,
        List.count_eq_zero.2 (hsep previous), hattrs attr List.mem_cons_self,
        ih fun attr hattr => hattrs attr (List.mem_cons_of_mem _ hattr), List.countP_cons,
        delimiters]
      by_cases hquote : cfg.quote.char = d
      · by_cases hquoted : attr.ending = .quoted
        · simp [hquote, hquoted]
          omega
        · simp [hquote, hquoted]
      · simp [hquote]

private theorem not_mem_tagEnd (hd : d ∈ breakers) (closed : Bool) (last : Option Ending) :
    d ∉ (cfg.tagEnd closed last).toList := by
  have marks := not_mem_tagMarks hd
  simp only [tagMarks, List.mem_cons, not_or] at marks
  unfold tagEnd slash
  split
  · split <;> simp [marks]
  · simp [marks]

namespace IsHardened

/-- A start tag holds two quotes for each quoted value, and nothing else that breaks an
attribute. -/
theorem count_startTag (h : cfg.IsHardened) (hd : d ∈ breakers) (dialect : Dialect) {e : Element}
    (htag : d ∉ e.tag.toList) :
    (cfg.startTag dialect e).toList.count d =
      if cfg.quote.char = d then
        2 * (cfg.attributeTexts dialect e).countP (·.ending == .quoted)
      else 0 := by
  have angle : '<' ≠ d := by
    rintro rfl
    exact not_mem_tagMarks hd (by decide)
  obtain ⟨stacked, text⟩ := cfg.startTag_toList dialect e
  have each : ∀ attr ∈ cfg.attributeTexts dialect e,
      attr.text.toList.count d = cfg.delimiters d attr.ending :=
    fun _ hattr => h.count_attributeText hd hattr
  rw [text, List.count_cons_of_ne angle, List.count_append, List.count_append,
    List.count_eq_zero.2 htag, count_chain (h.not_mem_separator hd stacked) each,
    List.count_eq_zero.2 (not_mem_tagEnd hd _ _), Nat.zero_add, Nat.add_zero]

end IsHardened

/-- No start tag lets an attribute break out of its place: the start tag holds no backtick, no NUL
and no quote of the other kind, and its quotes are the two around each quoted value. -/
theorem startTag_holds_delimiters (h : cfg.IsHardened) (dialect : Dialect) (e : Element)
    (htag : ∀ d ∈ breakers, d ∉ e.tag.toList) :
    (∀ d ∈ breakers, d ≠ cfg.quote.char → d ∉ (cfg.startTag dialect e).toList) ∧
      (cfg.startTag dialect e).toList.count cfg.quote.char =
        2 * (cfg.attributeTexts dialect e).countP (·.ending == .quoted) ∧
      ∀ attr ∈ cfg.attributeTexts dialect e, attr.IsDelimited cfg.quote.char := by
  have quote : cfg.quote.char ∈ breakers := by cases cfg.quote <;> decide
  refine ⟨?_, ?_, fun attr hattr => h.isDelimited hattr⟩
  · intro d hd hother
    rw [← List.count_eq_zero, h.count_startTag hd dialect (htag d hd), if_neg (Ne.symm hother)]
  · rw [h.count_startTag quote dialect (htag _ quote), if_pos rfl]

/-- Allows parse errors and values without quotes, and uses single quotes. -/
def lenient : Config where
  allowParseErrors := true
  preferUnquoted := true
  tightAttributes := true
  closeSelfClosing := true
  entities := { entries := [('"', "quot")] }
  quote := .single

/-- Puts quotes, a backtick and a NUL into names, values and tokens. -/
def quotesEverywhere : Element :=
  { tag := "img"
    attrs.entries := [("n\x27", .text "a\"\x60\x00"), ("class", .spaceList ["a\x27", "b"]),
      ("src", .text "a.png"), ("#\x27", .flag true)] }

theorem startTag_holds_delimiters_lenient :
    lenient.IsHardened ∧ (∀ d ∈ breakers, d ∉ quotesEverywhere.tag.toList) ∧
      lenient.startTag .html quotesEverywhere =
        "<img n&#x27;=\x27a&quot;&#x60;&#x0;\x27class=\x27a&#x27; b\x27src=a.png &#x27; />" ∧
      (∀ d ∈ breakers, d ≠ '\x27' → d ∉ (lenient.startTag .html quotesEverywhere).toList) ∧
      (lenient.startTag .html quotesEverywhere).toList.count '\x27' =
        2 * (lenient.attributeTexts .html quotesEverywhere).countP (·.ending == .quoted) ∧
      ∀ attr ∈ lenient.attributeTexts .html quotesEverywhere, attr.IsDelimited '\x27' := by
  have names : breakers.all (fun d => lenient.entities.entries.all fun entry =>
      entry.1 == '&' || !entry.2.toList.contains d) = true := by decide
  have indent : breakers.all (fun d => !lenient.customElementIndent.toList.contains d) = true := by
    decide
  have letters : breakers.all (fun d => !quotesEverywhere.tag.toList.contains d) = true := by decide
  have hardened : lenient.IsHardened :=
    { refused := rfl
      names := fun d hd => Entities.namesAvoid_of_all (List.all_eq_true.1 names d hd)
      indent := fun d hd => by simpa using List.all_eq_true.1 indent d hd }
  have tag : ∀ d ∈ breakers, d ∉ quotesEverywhere.tag.toList := fun d hd => by
    simpa using List.all_eq_true.1 letters d hd
  exact ⟨hardened, tag, by decide +kernel,
    startTag_holds_delimiters hardened .html quotesEverywhere tag⟩

end Config

end HtmlPrinter
