import HtmlPrinter.Proofs.DocumentOrder
import HtmlPrinter.Proofs.Escaping
import HtmlPrinter.Proofs.TagShape
import Mathlib.Data.List.Forall2

/-!
# Options that save characters

Some options are there to make markup shorter, and none of them ever makes it longer. They do not
work one by one: a value without quotes saves the two quotes, but may need a space behind it that a
closing quote does without, and a list without spaces may lose its quotes. What is saved pays for
that: an attribute that ends differently from before is shorter by more than the one character that
its ending may cost, which `AttributeText.Spares` says, and so every start tag is at most as long as
before. `length_render_turnOnAll_le` says the same of whole trees and any choice of these options.
-/

namespace HtmlPrinter

/-- Names the options that save characters. -/
inductive Saving where
  | omitOptionalTags
  | preferUnquoted
  | tightAttributes
  | tightCommaSeparatedLists
  | tightSelfClosing
  | allowParseErrors
  | allowDangerousCharacters
  | allowDangerousHtml
deriving DecidableEq, Repr

namespace Config

def turnOn (cfg : Config) : Saving → Config
  | .omitOptionalTags => { cfg with omitOptionalTags := true }
  | .preferUnquoted => { cfg with preferUnquoted := true }
  | .tightAttributes => { cfg with tightAttributes := true }
  | .tightCommaSeparatedLists => { cfg with tightCommaSeparatedLists := true }
  | .tightSelfClosing => { cfg with tightSelfClosing := true }
  | .allowParseErrors => { cfg with allowParseErrors := true }
  | .allowDangerousCharacters => { cfg with allowDangerousCharacters := true }
  | .allowDangerousHtml => { cfg with allowDangerousHtml := true }

def turnOnAll (cfg : Config) (savings : List Saving) : Config := savings.foldl turnOn cfg

/-- Says that a configuration has every saving option that another has, and agrees with it in all
other respects. -/
structure Saves (tight loose : Config) : Prop where
  quote : tight.quote = loose.quote
  voids : tight.voids = loose.voids
  booleanAttributes : tight.booleanAttributes = loose.booleanAttributes
  booleanMarks : tight.booleanMarks = loose.booleanMarks
  customElementIndent : tight.customElementIndent = loose.customElementIndent
  closeSelfClosing : tight.closeSelfClosing = loose.closeSelfClosing
  closeEmptyElements : tight.closeEmptyElements = loose.closeEmptyElements
  escapeScriptEndTags : tight.escapeScriptEndTags = loose.escapeScriptEndTags
  entities : tight.entities = loose.entities
  omitOptionalTags : loose.omitOptionalTags = true → tight.omitOptionalTags = true
  preferUnquoted : loose.preferUnquoted = true → tight.preferUnquoted = true
  tightAttributes : loose.tightAttributes = true → tight.tightAttributes = true
  tightCommaSeparatedLists :
    loose.tightCommaSeparatedLists = true → tight.tightCommaSeparatedLists = true
  tightSelfClosing : loose.tightSelfClosing = true → tight.tightSelfClosing = true
  allowParseErrors : loose.allowParseErrors = true → tight.allowParseErrors = true
  allowDangerousCharacters :
    loose.allowDangerousCharacters = true → tight.allowDangerousCharacters = true
  allowDangerousHtml : loose.allowDangerousHtml = true → tight.allowDangerousHtml = true

private theorem turnOn_saves (cfg : Config) (saving : Saving) : (cfg.turnOn saving).Saves cfg := by
  cases saving <;> constructor <;> simp [turnOn]

end Config

/-! ## Escaped text -/

namespace Escaping

/-- Says that an escaping writes the same references as another, for fewer characters. -/
structure Spares (tight loose : Escaping) : Prop where
  entities : tight.entities = loose.entities
  escapes : ∀ c, tight.escapes c = true → loose.escapes c = true

private theorem length_escapedChar_pos (e : Escaping) (c : Char) :
    1 ≤ (e.escapedChar c).length := by
  rw [length_escapedChar]
  split <;> omega

private theorem length_le_length_escaped (e : Escaping) (s : String) :
    s.length ≤ (e.escaped s).length :=
  Nat.le_trans (Nat.le_add_right _ _) (e.length_add_countP_le_length_escaped s)

namespace Spares

variable {tight loose : Escaping}

theorem needsEscape (h : tight.Spares loose) {s : String} (hs : tight.needsEscape s = true) :
    loose.needsEscape s = true := by
  rw [Escaping.needsEscape, List.any_eq_true] at hs ⊢
  obtain ⟨c, hc, hescapes⟩ := hs
  exact ⟨c, hc, h.escapes c hescapes⟩

private theorem length_escapedChar_le (h : tight.Spares loose) (c : Char) :
    (tight.escapedChar c).length ≤ (loose.escapedChar c).length := by
  by_cases hc : tight.escapes c = true
  · have same : tight.escapedChar c = loose.escapedChar c := by
      rw [escapedChar, escapedChar, if_pos hc, if_pos (h.escapes c hc), h.entities]
    exact Nat.le_of_eq (congrArg String.length same)
  · have plain : (tight.escapedChar c).length = 1 := by
      simp [escapedChar, hc]
    rw [plain]
    exact loose.length_escapedChar_pos c

/-- Fewer characters, of which fewer are escaped, make a shorter text. -/
theorem length_escaped_le (h : tight.Spares loose) {s t : String}
    (hst : s.toList.Sublist t.toList) : (tight.escaped s).length ≤ (loose.escaped t).length := by
  have each : ∀ {cs ds : List Char}, cs.Sublist ds →
      (tight.escapedList cs).length ≤ (loose.escapedList ds).length := by
    intro cs ds hsub
    induction hsub with
    | slnil => simp [escapedList]
    | cons d _ ih =>
        rw [escapedList, String.length_append]
        omega
    | cons_cons d _ ih =>
        have := h.length_escapedChar_le d
        rw [escapedList, escapedList, String.length_append, String.length_append]
        omega
  exact each hst

end Spares

end Escaping

/-! ## Attributes -/

/-- Counts the character that a different ending may cost, as a space or not. -/
def Ending.change (tight loose : Option Ending) : Nat := if tight = loose then 0 else 1

private theorem Ending.change_self (ending : Option Ending) :
    Ending.change ending ending = 0 :=
  if_pos rfl

private theorem Ending.change_le_one (tight loose : Option Ending) :
    Ending.change tight loose ≤ 1 := by
  unfold change
  split <;> omega

private theorem Ending.length_ite_le {dense' dense : Bool} (h : dense = true → dense' = true)
    (allows : Option Ending → Bool) {without within : String}
    (hspace : within.length = without.length + 1) (ending' ending : Option Ending) :
    (if dense' && allows ending' then without else within).length ≤
      (if dense && allows ending then without else within).length + change ending' ending := by
  by_cases hsame : ending' = ending
  · subst hsame
    cases dense with
    | true => simp [h rfl]
    | false =>
        simp only [Bool.false_and, Bool.false_eq_true, if_false]
        split <;> omega
  · rw [change, if_neg hsame]
    split <;> split <;> omega

/-- Says that an attribute is no longer than another, and shorter if it ends differently. -/
def AttributeText.Spares (tight loose : AttributeText) : Prop :=
  tight.text.length + Ending.change (some tight.ending) (some loose.ending) ≤ loose.text.length

private theorem AttributeText.spares_of_length_le {tight loose : String} {ending : Ending}
    (h : tight.length ≤ loose.length) :
    AttributeText.Spares ⟨tight, ending⟩ ⟨loose, ending⟩ := by
  rw [Spares, Ending.change_self]
  exact h

private theorem joinTokens_sublist {tight loose : String} (h : tight.toList.Sublist loose.toList)
    (tokens : List String) :
    (joinTokens tight tokens).toList.Sublist (joinTokens loose tokens).toList := by
  fun_induction joinTokens tight tokens with
  | case1 => exact .slnil
  | case2 token => exact .refl _
  | case3 token rest hrest ih =>
      rw [joinTokens, String.toList_append, String.toList_append, String.toList_append,
        String.toList_append]
      · exact ((List.Sublist.refl _).append h).append ih
      · exact hrest

private theorem joinTokens_eq_or_mem {c : Char} {loose : String} (h : c ∈ loose.toList)
    (tight : String) (tokens : List String) :
    joinTokens tight tokens = joinTokens loose tokens ∨ c ∈ (joinTokens loose tokens).toList := by
  match tokens with
  | [] => exact .inl rfl
  | [token] => exact .inl rfl
  | token :: second :: rest => exact .inr (by simp [joinTokens, h])

namespace Config

namespace Saves

variable {tight loose : Config}

theorem escaping (h : tight.Saves loose) (place : Context) :
    (tight.escaping place).Spares (loose.escaping place) where
  entities := h.entities
  escapes := by
    intro c hc
    simp only [Escaping.escapes, Config.escaping, Bool.or_eq_true, List.contains_iff_mem,
      forbidden, Context.mem_forbidden] at hc ⊢
    rcases hc with hamp | hrequired | ⟨hstrict, herroneous⟩ | ⟨hsafe, hdangerous⟩
    · exact .inl hamp
    · exact .inr (.inl hrequired)
    · have strict : loose.allowParseErrors = false :=
        Bool.eq_false_iff.2 fun hallow => by simp [h.allowParseErrors hallow] at hstrict
      exact .inr (.inr (.inl ⟨strict, herroneous⟩))
    · have safe : loose.allowDangerousCharacters = false :=
        Bool.eq_false_iff.2 fun hallow => by simp [h.allowDangerousCharacters hallow] at hsafe
      exact .inr (.inr (.inr ⟨safe, hdangerous⟩))

private theorem length_escape_le (h : tight.Saves loose) (place : Context) (s : String) :
    (tight.escape place s).text.length ≤ (loose.escape place s).text.length := by
  rw [text_escape, text_escape]
  exact (h.escaping place).length_escaped_le (.refl _)

theorem leavesUnquoted (h : tight.Saves loose) {value : String}
    (hbare : loose.leavesUnquoted value = true) : tight.leavesUnquoted value = true := by
  simp only [Config.leavesUnquoted, Bool.and_eq_true, Bool.not_eq_true'] at hbare ⊢
  obtain ⟨⟨hprefer, hhead⟩, hplain⟩ := hbare
  refine ⟨⟨h.preferUnquoted hprefer, hhead⟩, Bool.eq_false_iff.2 fun hescape => ?_⟩
  rw [(h.escaping .unquoted).needsEscape hescape] at hplain
  cases hplain

/-- A value is written no longer, and without its quotes shorter by two characters at least. -/
theorem valueText (h : tight.Saves loose) {v w : String} (hsub : v.toList.Sublist w.toList)
    (hspace : v = w ∨ ' ' ∈ w.toList) : (tight.valueText v).Spares (loose.valueText w) := by
  have quoted : ∀ {cfg : Config} {value : String}, ¬ cfg.leavesUnquoted value = true →
      (cfg.valueText value).text.length =
        ((cfg.escaping cfg.quote.context).escaped value).length + 2 := by
    intro cfg value hbare
    rw [← String.length_toList, (valueText_of_not_leavesUnquoted hbare).2]
    simp [String.length_toList]
  by_cases hloose : loose.leavesUnquoted w = true
  · obtain ⟨htext, -, hchars, -⟩ := valueText_of_leavesUnquoted hloose
    have same : v = w := by
      refine hspace.resolve_right fun hmem => ?_
      have bare := hchars ' ' hmem
      revert bare
      decide
    subst same
    rw [htext, (valueText_of_leavesUnquoted (h.leavesUnquoted hloose)).1]
    exact AttributeText.spares_of_length_le (Nat.le_refl _)
  · rw [AttributeText.Spares, quoted hloose, (valueText_of_not_leavesUnquoted hloose).1]
    by_cases htight : tight.leavesUnquoted v = true
    · have shorter : v.length ≤ w.length := by
        simpa only [String.length_toList] using hsub.length_le
      have escaped := (loose.escaping loose.quote.context).length_le_length_escaped w
      have cost := Ending.change_le_one (some (tight.valueText v).ending) (some .quoted)
      have text : (tight.valueText v).text.length = v.length := by
        rw [(valueText_of_leavesUnquoted htight).1]
      omega
    · have escaped := (h.escaping tight.quote.context).length_escaped_le hsub
      rw [quoted htight, (valueText_of_not_leavesUnquoted htight).1, Ending.change_self]
      rw [h.quote] at escaped ⊢
      omega

theorem bareName (h : tight.Saves loose) (name : String) :
    (tight.bareName name).Spares (loose.bareName name) :=
  AttributeText.spares_of_length_le (h.length_escape_le .attributeName name)

theorem assignment (h : tight.Saves loose) (name : String) {v w : String}
    (hsub : v.toList.Sublist w.toList) (hspace : v = w ∨ ' ' ∈ w.toList) :
    (tight.assignment name v).Spares (loose.assignment name w) := by
  have named := h.length_escape_le .attributeName name
  have valued := h.valueText hsub hspace
  simp only [AttributeText.Spares, Config.assignment, String.length_append] at valued ⊢
  omega

theorem flagText (h : tight.Saves loose) (dialect : Dialect) (name : String) :
    (tight.flagText dialect name).Spares (loose.flagText dialect name) := by
  have marks : tight.unmarked? name = loose.unmarked? name := by
    rw [unmarked?, unmarked?, h.booleanMarks]
  have boolean : tight.isBooleanAttribute name = loose.isBooleanAttribute name := by
    rw [isBooleanAttribute, isBooleanAttribute, h.booleanAttributes]
  have assigned : ∀ value, (tight.assignment name value).Spares (loose.assignment name value) :=
    fun value => h.assignment name (.refl _) (.inl rfl)
  unfold Config.flagText
  rw [marks, boolean]
  cases loose.unmarked? name with
  | some rest => exact h.bareName rest
  | none =>
      cases dialect with
      | svg => exact assigned name
      | html =>
          cases loose.isBooleanAttribute name with
          | true => exact h.bareName name
          | false => exact assigned ""

theorem listSeparator (h : tight.Saves loose) :
    tight.listSeparator = loose.listSeparator ∨
      tight.listSeparator = "," ∧ loose.listSeparator = ", " := by
  rw [Config.listSeparator, Config.listSeparator]
  cases hloose : loose.tightCommaSeparatedLists with
  | true => exact .inl (by simp [h.tightCommaSeparatedLists hloose])
  | false => cases tight.tightCommaSeparatedLists <;> simp

theorem commaList (h : tight.Saves loose) (name : String) (tokens : List String) :
    (tight.assignment name (joinTokens tight.listSeparator tokens)).Spares
      (loose.assignment name (joinTokens loose.listSeparator tokens)) := by
  rcases h.listSeparator with hsame | ⟨htight, hloose⟩
  · rw [hsame]
    exact h.assignment name (.refl _) (.inl rfl)
  · rw [htight, hloose]
    exact h.assignment name (joinTokens_sublist (by decide) tokens)
      (joinTokens_eq_or_mem (by decide) _ tokens)

/-- An attribute is written or not whatever is saved, and if it is it is written no longer. -/
theorem attributeText? (h : tight.Saves loose) (dialect : Dialect) (name : String) (value : Value) :
    Option.Rel AttributeText.Spares (tight.attributeText? dialect name value)
      (loose.attributeText? dialect name value) := by
  cases value with
  | flag on =>
      cases on with
      | true => exact .some (h.flagText dialect name)
      | false => exact .none
  | text content => exact .some (h.assignment name (.refl _) (.inl rfl))
  | spaceList tokens => exact .some (h.assignment name (.refl _) (.inl rfl))
  | commaList tokens => exact .some (h.commaList name tokens)

theorem attributeTexts (h : tight.Saves loose) (dialect : Dialect) (e : Element) :
    List.Forall₂ AttributeText.Spares (tight.attributeTexts dialect e)
      (loose.attributeTexts dialect e) := by
  refine List.rel_filterMap ?_ (@List.forall₂_refl _ Eq _ e.attrs.entries)
  rintro entry _ rfl
  exact h.attributeText? dialect entry.1 entry.2

/-! ## Start tags -/

private theorem length_separator_le (h : tight.Saves loose) (stacked : Bool)
    (previous' previous : Option Ending) :
    (tight.separator stacked previous').length ≤
      (loose.separator stacked previous).length + Ending.change previous' previous := by
  cases stacked with
  | true => simp [separator, h.customElementIndent]
  | false =>
      simp only [separator, Bool.false_eq_true, if_false]
      exact Ending.length_ite_le h.tightAttributes (· == some .quoted) rfl previous' previous

private theorem length_tagEnd_le (h : tight.Saves loose) (closed : Bool)
    (previous' previous : Option Ending) :
    (tight.tagEnd closed previous').length ≤
      (loose.tagEnd closed previous).length + Ending.change previous' previous := by
  cases closed with
  | false => simp [tagEnd]
  | true =>
      have slashed : (tight.slash previous').length ≤
          (loose.slash previous).length + Ending.change previous' previous :=
        Ending.length_ite_le h.tightSelfClosing (· != some .unquoted) rfl previous' previous
      simp only [tagEnd, if_true, String.length_append]
      omega

private theorem length_chain_le (h : tight.Saves loose) (stacked closed : Bool)
    {attrs' attrs : List AttributeText} (hattrs : List.Forall₂ AttributeText.Spares attrs' attrs)
    (previous' previous : Option Ending) :
    (chain (tight.separator stacked) previous' attrs').length +
        (tight.tagEnd closed (lastEnding previous' attrs')).length ≤
      (chain (loose.separator stacked) previous attrs).length +
        (loose.tagEnd closed (lastEnding previous attrs)).length +
          Ending.change previous' previous := by
  induction hattrs generalizing previous' previous with
  | nil => simpa [chain, lastEnding] using h.length_tagEnd_le closed previous' previous
  | @cons attr' attr rest' rest hattr _ ih =>
      have separated := h.length_separator_le stacked previous' previous
      have below := ih (some attr'.ending) (some attr.ending)
      rw [AttributeText.Spares] at hattr
      simp only [chain, lastEnding, String.length_append]
      omega

theorem selfCloses (h : tight.Saves loose) (dialect : Dialect) (e : Element) :
    tight.selfCloses dialect e = loose.selfCloses dialect e := by
  cases dialect with
  | html => rw [Config.selfCloses, Config.selfCloses, isVoid, isVoid, h.voids, h.closeSelfClosing]
  | svg => rw [Config.selfCloses, Config.selfCloses, h.closeEmptyElements]

theorem length_startTag_le (h : tight.Saves loose) (dialect : Dialect) (e : Element) :
    (tight.startTag dialect e).length ≤ (loose.startTag dialect e).length := by
  have attrs := h.attributeTexts dialect e
  have rest := h.length_chain_le
    (e.isCustom && decide (1 < (loose.attributeTexts dialect e).length))
    (loose.selfCloses dialect e) attrs none none
  rw [Ending.change_self] at rest
  rw [startTag_eq_chain, startTag_eq_chain, attrs.length_eq, h.selfCloses]
  simp only [String.length_append]
  omega

/-! ## Trees -/

theorem isLeaf (h : tight.Saves loose) (dialect : Dialect) (e : Element) :
    tight.isLeaf dialect e = loose.isLeaf dialect e := by
  cases dialect with
  | html => rw [Config.isLeaf, Config.isLeaf, isVoid, isVoid, h.voids]
  | svg => rw [Config.isLeaf, Config.isLeaf, h.selfCloses]

private theorem sublist_of_omitted {tight loose : Bool} (h : loose = true → tight = true)
    (pieces : List Piece) :
    (if tight then [] else pieces).Sublist (if loose then [] else pieces) := by
  cases loose with
  | true => simp [h rfl]
  | false => cases tight <;> simp

theorem omits (h : tight.Saves loose) {dialect : Dialect} (homits : loose.omits dialect = true) :
    tight.omits dialect = true := by
  rw [Config.omits, Bool.and_eq_true] at homits ⊢
  exact ⟨h.omitOptionalTags homits.1, homits.2⟩

private theorem startPieces_sublist (h : tight.Saves loose) (dialect : Dialect) (e : Element)
    (place : Place) :
    (tight.startPieces dialect e place).Sublist (loose.startPieces dialect e place) := by
  have shown :
      (tight.attributeTexts dialect e).isEmpty = (loose.attributeTexts dialect e).isEmpty := by
    rw [Bool.eq_iff_iff, List.isEmpty_iff_length_eq_zero, List.isEmpty_iff_length_eq_zero,
      (h.attributeTexts dialect e).length_eq]
  refine sublist_of_omitted (fun homitted => ?_) _
  rw [omitsStartTag, Bool.and_eq_true, Bool.and_eq_true] at homitted ⊢
  rw [isEmpty_layOut, shown, ← isEmpty_layOut loose e.isCustom]
  exact ⟨⟨h.omits homitted.1.1, homitted.1.2⟩, homitted.2⟩

private theorem endPieces_sublist (h : tight.Saves loose) (dialect : Dialect) (e : Element)
    (place : Place) :
    (tight.endPieces dialect e place).Sublist (loose.endPieces dialect e place) := by
  refine sublist_of_omitted (fun homitted => ?_) _
  rw [omitsEndTag, Bool.and_eq_true] at homitted ⊢
  exact ⟨h.omits homitted.1, homitted.2⟩

mutual

/-- The pieces of a tree are some of those that are written without the saving options. -/
theorem pieces_sublist (h : tight.Saves loose) (dialect : Dialect) (place : Place) :
    (node : Node) → (tight.pieces dialect place node).Sublist (loose.pieces dialect place node)
  | .root children => piecesFrom_sublist h dialect none children 0 children
  | .element ⟨tag, attrs, children⟩ => by
      have below := piecesFrom_sublist h (dialect.enter tag) (some tag) children 0 children
      rw [Config.pieces, Config.pieces, h.isLeaf]
      refine (h.startPieces_sublist _ _ place).append ?_
      split
      · exact .refl _
      · exact below.append (h.endPieces_sublist _ _ place)
  | .text _ | .comment _ | .doctype _ | .raw _ => by
      simp only [Config.pieces]
      exact .refl _

private theorem piecesFrom_sublist (h : tight.Saves loose) (dialect : Dialect)
    (parent : Option String) (siblings : List Node) (index : Nat) :
    (nodes : List Node) → (tight.piecesFrom dialect parent siblings index nodes).Sublist
      (loose.piecesFrom dialect parent siblings index nodes)
  | [] => .slnil
  | node :: rest => by
      rw [Config.piecesFrom, Config.piecesFrom]
      exact (pieces_sublist h dialect ⟨parent, siblings, index⟩ node).append
        (piecesFrom_sublist h dialect parent siblings (index + 1) rest)

end

private theorem length_pieceText_le (h : tight.Saves loose) (piece : Piece) :
    (tight.pieceText piece).length ≤ (loose.pieceText piece).length := by
  have escaped : ∀ content, ((tight.escaping .text).escaped content).length ≤
      ((loose.escaping .text).escaped content).length :=
    fun content => (h.escaping .text).length_escaped_le (.refl _)
  cases piece with
  | startTag dialect e => exact h.length_startTag_le dialect e
  | endTag tag => exact Nat.le_refl _
  | text parent content =>
      cases parent with
      | none => exact escaped content
      | some tag =>
          have guards : tight.guardsText tag = loose.guardsText tag := by
            rw [guardsText, guardsText, h.escapeScriptEndTags]
          simp only [pieceText, guards]
          split
          · exact Nat.le_refl _
          · split
            · exact Nat.le_refl _
            · exact escaped content
  | comment content => exact Nat.le_refl _
  | doctype name => exact Nat.le_refl _
  | raw markup =>
      simp only [pieceText]
      by_cases hloose : loose.allowDangerousHtml = true
      · simp [hloose, h.allowDangerousHtml hloose]
      · rw [if_neg hloose]
        split
        · exact (loose.escaping .text).length_le_length_escaped markup
        · exact escaped markup

private theorem length_piecesText_le (h : tight.Saves loose) {ps qs : List Piece}
    (hsub : ps.Sublist qs) : (tight.piecesText ps).length ≤ (loose.piecesText qs).length := by
  induction hsub with
  | slnil => simp [piecesText]
  | cons piece _ ih =>
      rw [piecesText, String.length_append]
      omega
  | cons_cons piece _ ih =>
      have first := h.length_pieceText_le piece
      rw [piecesText, piecesText, String.length_append, String.length_append]
      omega

theorem length_render_le (h : tight.Saves loose) (node : Node) :
    (tight.render node).length ≤ (loose.render node).length := by
  rw [render_eq_markup, render_eq_markup]
  exact h.length_piecesText_le (h.pieces_sublist .html (.alone node) node)

end Saves

/-- The options that save characters do so: turning any of them on, one after another, never makes
the markup of a tree longer. -/
theorem length_render_turnOnAll_le (cfg : Config) (savings : List Saving) (node : Node) :
    ((cfg.turnOnAll savings).render node).length ≤ (cfg.render node).length := by
  induction savings generalizing cfg with
  | nil => exact Nat.le_refl _
  | cons saving rest ih =>
      calc ((cfg.turnOnAll (saving :: rest)).render node).length
          ≤ ((cfg.turnOn saving).render node).length := ih (cfg.turnOn saving)
        _ ≤ (cfg.render node).length := (cfg.turnOn_saves saving).length_render_le node

end Config

end HtmlPrinter
