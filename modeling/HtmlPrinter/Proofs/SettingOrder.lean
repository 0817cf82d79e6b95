import HtmlPrinter.Render

/-!
# The order of settings

A setting writes one field of the options and does not see the others. All fields but the entities
then hold what was last written to them (`Options.get_setAll`), and the entities collect the names
of all settings for them (`Options.entities_setAll`). So it does not matter how the settings of
different fields are mixed: `Options.build_setAll_congr` says so, and what building comes to.
-/

namespace HtmlPrinter

namespace Options

inductive Field where
  | quote
  | booleanMarks
  | customElementIndent
  | allowParseErrors
  | allowDangerousCharacters
  | allowDangerousHtml
  | omitOptionalTags
  | preferUnquoted
  | tightAttributes
  | tightCommaSeparatedLists
  | tightSelfClosing
  | closeSelfClosing
  | closeEmptyElements
  | escapeScriptEndTags
  | voids
  | booleanAttributes
  | entities
deriving DecidableEq, Repr

/-- Gives the type of what a field holds. -/
abbrev Field.Content : Field → Type
  | quote => Char
  | booleanMarks => List Char
  | customElementIndent => String
  | voids | booleanAttributes => Option (List String)
  | entities => Entities
  | _ => Bool

def get (o : Options) : (field : Field) → field.Content
  | .quote => o.quote
  | .booleanMarks => o.booleanMarks
  | .customElementIndent => o.customElementIndent
  | .allowParseErrors => o.allowParseErrors
  | .allowDangerousCharacters => o.allowDangerousCharacters
  | .allowDangerousHtml => o.allowDangerousHtml
  | .omitOptionalTags => o.omitOptionalTags
  | .preferUnquoted => o.preferUnquoted
  | .tightAttributes => o.tightAttributes
  | .tightCommaSeparatedLists => o.tightCommaSeparatedLists
  | .tightSelfClosing => o.tightSelfClosing
  | .closeSelfClosing => o.closeSelfClosing
  | .closeEmptyElements => o.closeEmptyElements
  | .escapeScriptEndTags => o.escapeScriptEndTags
  | .voids => o.voids
  | .booleanAttributes => o.booleanAttributes
  | .entities => o.entities

private theorem eq_of_get_eq {o o' : Options} (h : ∀ field, o.get field = o'.get field) :
    o = o' := by
  obtain ⟨⟨⟩, _, _, _⟩ := o
  obtain ⟨⟨⟩, _, _, _⟩ := o'
  simp only [Options.mk.injEq, Style.mk.injEq]
  exact ⟨⟨h .booleanMarks, h .customElementIndent, h .allowParseErrors,
    h .allowDangerousCharacters, h .allowDangerousHtml, h .omitOptionalTags, h .preferUnquoted,
    h .tightAttributes, h .tightCommaSeparatedLists, h .tightSelfClosing, h .closeSelfClosing,
    h .closeEmptyElements, h .escapeScriptEndTags, h .entities⟩, h .quote, h .voids,
    h .booleanAttributes⟩

end Options

namespace Setting

open Options (Field)

/-- Gives the field that a setting writes. -/
def field : Setting → Field
  | .quote _ => .quote
  | .booleanMarks _ => .booleanMarks
  | .customElementIndent _ | .customElementIndentWidth _ => .customElementIndent
  | .allowParseErrors => .allowParseErrors
  | .allowDangerousCharacters => .allowDangerousCharacters
  | .allowDangerousHtml => .allowDangerousHtml
  | .omitOptionalTags => .omitOptionalTags
  | .preferUnquoted => .preferUnquoted
  | .tightAttributes => .tightAttributes
  | .tightCommaSeparatedLists => .tightCommaSeparatedLists
  | .tightSelfClosing => .tightSelfClosing
  | .closeSelfClosing => .closeSelfClosing
  | .closeEmptyElements => .closeEmptyElements
  | .keepScriptEndTags => .escapeScriptEndTags
  | .voids _ => .voids
  | .booleanAttributes _ => .booleanAttributes
  | .entity _ _ | .entities _ => .entities

/-- Gives the value that a setting writes to a field whatever is there. -/
def value? : Setting → (field : Field) → Option field.Content
  | .quote c, .quote => some c
  | .booleanMarks marks, .booleanMarks => some marks
  | .customElementIndent indent, .customElementIndent => some indent
  | .customElementIndentWidth width, .customElementIndent =>
      some (String.ofList (List.replicate width ' '))
  | .allowParseErrors, .allowParseErrors => some true
  | .allowDangerousCharacters, .allowDangerousCharacters => some true
  | .allowDangerousHtml, .allowDangerousHtml => some true
  | .omitOptionalTags, .omitOptionalTags => some true
  | .preferUnquoted, .preferUnquoted => some true
  | .tightAttributes, .tightAttributes => some true
  | .tightCommaSeparatedLists, .tightCommaSeparatedLists => some true
  | .tightSelfClosing, .tightSelfClosing => some true
  | .closeSelfClosing, .closeSelfClosing => some true
  | .closeEmptyElements, .closeEmptyElements => some true
  | .keepScriptEndTags, .escapeScriptEndTags => some false
  | .voids names, .voids => some (some names)
  | .booleanAttributes names, .booleanAttributes => some (some names)
  | _, _ => none

/-- Lists the characters that a setting names, with their names. -/
def names : Setting → List (Char × String)
  | .entity c name => [(c, name)]
  | .entities pairs => pairs
  | _ => []

private theorem value?_eq_none {s : Setting} {field : Field} (h : s.field ≠ field) :
    s.value? field = none := by
  cases s <;> cases field <;> first | rfl | exact absurd rfl h

private theorem names_eq_nil {s : Setting} (h : s.field ≠ .entities) : s.names = [] := by
  cases s <;> first | rfl | exact absurd rfl h

/-- Says that the settings for each field are the same and come in the same order. -/
def SameForEachField (first second : List Setting) : Prop :=
  ∀ field : Field, first.filter (fun s => decide (s.field = field)) =
    second.filter fun s => decide (s.field = field)

private theorem filterMap_value?_filter (settings : List Setting) (field : Field) :
    (settings.filter fun s => decide (s.field = field)).filterMap (value? · field) =
      settings.filterMap (value? · field) := by
  induction settings with
  | nil => rfl
  | cons s rest ih =>
      by_cases h : s.field = field
      · rw [List.filter_cons_of_pos (by simpa using h)]
        simp only [List.filterMap_cons, ih]
      · rw [List.filter_cons_of_neg (by simpa using h)]
        simp only [List.filterMap_cons, value?_eq_none h, ih]

private theorem flatMap_names_filter (settings : List Setting) :
    (settings.filter fun s => decide (s.field = .entities)).flatMap names =
      settings.flatMap names := by
  induction settings with
  | nil => rfl
  | cons s rest ih =>
      by_cases h : s.field = .entities
      · rw [List.filter_cons_of_pos (by simpa using h), List.flatMap_cons, List.flatMap_cons, ih]
      · rw [List.filter_cons_of_neg (by simpa using h), List.flatMap_cons, names_eq_nil h, ih,
          List.nil_append]

/-- Gives what settings leave in a field that does not collect: the last value that they write, or
else the standard one. -/
def lastValue (settings : List Setting) (field : Field) : field.Content :=
  (settings.filterMap (value? · field)).getLast?.getD (({} : Options).get field)

/-- Gives the last name that settings give to a character. -/
def lastName? (settings : List Setting) (c : Char) : Option String :=
  ((settings.flatMap names).filter fun pair => decide (pair.1 = c)).getLast?.map Prod.snd

end Setting

namespace Options

/-- One setting in its own field, and in no other. -/
theorem get_set (o : Options) (s : Setting) {field : Field} (h : field ≠ .entities) :
    (o.set s).get field = (s.value? field).getD (o.get field) := by
  cases s <;> cases field <;> first | rfl | exact absurd rfl h

private theorem entities_set (o : Options) (s : Setting) :
    (o.set s).entities = o.entities.insertMany s.names := by
  cases s <;> rfl

theorem get_setAll (o : Options) (settings : List Setting) {field : Field}
    (h : field ≠ .entities) :
    (o.setAll settings).get field =
      (settings.filterMap (Setting.value? · field)).getLast?.getD (o.get field) := by
  induction settings generalizing o with
  | nil => rfl
  | cons s rest ih =>
      have step : o.setAll (s :: rest) = (o.set s).setAll rest := rfl
      rw [step, ih, get_set o s h]
      cases hvalue : s.value? field with
      | none => simp only [List.filterMap_cons, hvalue, Option.getD_none]
      | some value => simp only [List.filterMap_cons, hvalue, List.getLast?_cons, Option.getD_some]

theorem entities_setAll (o : Options) (settings : List Setting) :
    (o.setAll settings).entities = o.entities.insertMany (settings.flatMap Setting.names) := by
  induction settings generalizing o with
  | nil => rfl
  | cons s rest ih =>
      have step : o.setAll (s :: rest) = (o.set s).setAll rest := rfl
      rw [step, ih, entities_set, ← OrderedMap.insertMany_append, List.flatMap_cons]

/-- Options do not depend on how the settings of different fields are mixed. -/
theorem setAll_congr {first second : List Setting} (h : Setting.SameForEachField first second)
    (o : Options) : o.setAll first = o.setAll second := by
  apply eq_of_get_eq
  intro field
  by_cases hfield : field = .entities
  · subst hfield
    change (o.setAll first).entities = (o.setAll second).entities
    rw [entities_setAll, entities_setAll, ← Setting.flatMap_names_filter first,
      ← Setting.flatMap_names_filter second, h .entities]
  · rw [get_setAll o first hfield, get_setAll o second hfield,
      ← Setting.filterMap_value?_filter first, ← Setting.filterMap_value?_filter second, h field]

/-- Settings in any order, as long as it is the same for each field, make the same options. These
are refused for the last quote if it is not legal, and render every tree alike otherwise. Each field
holds what was last written to it, and each character has the last name given to it. -/
theorem build_setAll_congr {first second : List Setting}
    (h : Setting.SameForEachField first second) :
    let o := ({} : Options).setAll first
    let o' := ({} : Options).setAll second
    let quote := Setting.lastValue first .quote
    o = o' ∧
      (quote ≠ '"' → quote ≠ '\x27' →
        o.build = .error (.invalidQuote quote) ∧ o'.build = .error (.invalidQuote quote)) ∧
      (quote = '"' ∨ quote = '\x27' →
        ∃ cfg cfg', o.build = .ok cfg ∧ o'.build = .ok cfg' ∧
          ∀ node, cfg.render node = cfg'.render node) ∧
      (∀ field, field ≠ .entities → o.get field = Setting.lastValue first field) ∧
      ∀ c, o.entities.get? c = Setting.lastName? first c := by
  intro o o' quote
  have same : o = o' := setAll_congr h {}
  have fields : ∀ field, field ≠ .entities → o.get field = Setting.lastValue first field :=
    fun field hfield => get_setAll {} first hfield
  have quoted : o.quote = quote := fields .quote (by decide)
  rw [← same]
  refine ⟨rfl, ?_, ?_, fields, ?_⟩
  · intro hdouble hsingle
    have illegal : ∀ legal : Quote, o.quote ≠ legal.char := by
      intro legal
      rw [quoted]
      cases legal with
      | double => exact hdouble
      | single => exact hsingle
    have refused : o.build = .error (.invalidQuote quote) :=
      build_eq_error_iff.2 ⟨congrArg _ quoted.symm, illegal⟩
    exact ⟨refused, refused⟩
  · intro hquote
    obtain ⟨legal, hlegal⟩ : ∃ legal : Quote, quote = legal.char := by
      rcases hquote with hdouble | hsingle
      · exact ⟨.double, hdouble⟩
      · exact ⟨.single, hsingle⟩
    have built : o.build = .ok (o.resolve legal) := by
      rw [build, Quote.ofChar?_eq_some_iff.2 (quoted.trans hlegal)]
    exact ⟨_, _, built, built, fun _ => rfl⟩
  · intro c
    have collected : o.entities = OrderedMap.insertMany ∅ (first.flatMap Setting.names) :=
      entities_setAll {} first
    rw [collected, OrderedMap.get?_insertMany, OrderedMap.get?_empty, Option.or_none]
    rfl

/-- Two ways to mix settings, of which some are for the same field. -/
theorem build_setAll_congr_mixed :
    let first : List Setting :=
      [.quote 'a', .entity '<' "less", .voids [], .quote '\x27', .customElementIndent "\t",
        .entities [('<', "lt"), ('>', "gt")], .keepScriptEndTags, .customElementIndentWidth 1]
    let second : List Setting :=
      [.keepScriptEndTags, .entity '<' "less", .entities [('<', "lt"), ('>', "gt")],
        .customElementIndent "\t", .quote 'a', .customElementIndentWidth 1, .quote '\x27',
        .voids []]
    let o := ({} : Options).setAll first
    Setting.SameForEachField first second ∧ o = ({} : Options).setAll second ∧
      o.quote = '\x27' ∧ o.customElementIndent = " " ∧ o.entities.get? '<' = some "lt" ∧
      ∃ cfg, o.build = .ok cfg := by
  intro first second o
  have mixed : Setting.SameForEachField first second := by
    intro field
    cases field <;> rfl
  obtain ⟨same, -, legal, fields, names⟩ := build_setAll_congr mixed
  obtain ⟨cfg, -, built, -, -⟩ := legal (.inr rfl)
  have indent := fields .customElementIndent (by decide)
  exact ⟨mixed, same, fields .quote (by decide), indent.trans (by decide), names '<', cfg, built⟩

end Options

end HtmlPrinter
