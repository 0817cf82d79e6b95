import HtmlPrinter.Config.Basic

/-!
# Options

Options are what a user asks for, in any order and without checks. `Options.build` checks them:
the one thing that can be wrong is the quote. A sequence of requests is a list of `Setting`s.
-/

namespace HtmlPrinter

/-- Collects what a user asks for; a list that is not given means the standard one. -/
structure Options extends Style where
  quote : Char := '"'
  voids : Option (List String) := none
  booleanAttributes : Option (List String) := none
deriving DecidableEq, Repr, Inhabited

inductive OptionsError where
  | invalidQuote (quote : Char)
deriving DecidableEq, Repr

def OptionsError.message : OptionsError → String
  | invalidQuote quote =>
      "invalid quote \x60" ++ String.ofList [quote] ++ "\x60, expected \x60\x27\x60 or \x60\"\x60"

/-- Describes one request. -/
inductive Setting where
  | quote (c : Char)
  | booleanMarks (marks : List Char)
  | customElementIndent (indent : String)
  | customElementIndentWidth (width : Nat)
  | allowParseErrors
  | allowDangerousCharacters
  | allowDangerousHtml
  | omitOptionalTags
  | preferUnquoted
  | tightAttributes
  | tightCommaSeparatedLists
  | tightSelfClosing
  | closeSelfClosing
  | closeEmptyElements
  | keepScriptEndTags
  | voids (names : List String)
  | booleanAttributes (names : List String)
  | entity (c : Char) (name : String)
  /-- Names the references of several characters, of which a later one wins. -/
  | entities (pairs : List (Char × String))
deriving DecidableEq, Repr

namespace Options

def set (o : Options) : Setting → Options
  | .quote c => { o with quote := c }
  | .booleanMarks marks => { o with booleanMarks := marks }
  | .customElementIndent indent => { o with customElementIndent := indent }
  | .customElementIndentWidth width =>
      { o with customElementIndent := String.ofList (List.replicate width ' ') }
  | .allowParseErrors => { o with allowParseErrors := true }
  | .allowDangerousCharacters => { o with allowDangerousCharacters := true }
  | .allowDangerousHtml => { o with allowDangerousHtml := true }
  | .omitOptionalTags => { o with omitOptionalTags := true }
  | .preferUnquoted => { o with preferUnquoted := true }
  | .tightAttributes => { o with tightAttributes := true }
  | .tightCommaSeparatedLists => { o with tightCommaSeparatedLists := true }
  | .tightSelfClosing => { o with tightSelfClosing := true }
  | .closeSelfClosing => { o with closeSelfClosing := true }
  | .closeEmptyElements => { o with closeEmptyElements := true }
  | .keepScriptEndTags => { o with escapeScriptEndTags := false }
  | .voids names => { o with voids := some names }
  | .booleanAttributes names => { o with booleanAttributes := some names }
  | .entity c name => { o with entities := o.entities.insert c name }
  | .entities pairs => { o with entities := o.entities.insertMany pairs }

def setAll (o : Options) (settings : List Setting) : Options := settings.foldl set o

def resolve (o : Options) (quote : Quote) : Config :=
  { toStyle := o.toStyle
    quote := quote
    voids := o.voids.getD standardVoids
    booleanAttributes := o.booleanAttributes.getD standardBooleanAttributes }

def build (o : Options) : Except OptionsError Config :=
  match Quote.ofChar? o.quote with
  | some quote => .ok (o.resolve quote)
  | none => .error (.invalidQuote o.quote)

/-- Options are refused exactly for a quote that is not legal. -/
theorem build_eq_error_iff {o : Options} {e : OptionsError} :
    o.build = .error e ↔ e = .invalidQuote o.quote ∧ ∀ quote : Quote, o.quote ≠ quote.char := by
  unfold build
  cases h : Quote.ofChar? o.quote with
  | some quote =>
      have legal := Quote.ofChar?_eq_some_iff.1 h
      simpa using fun _ => ⟨quote, legal⟩
  | none =>
      have illegal : ∀ quote : Quote, o.quote ≠ quote.char := by
        intro quote hq
        rw [Quote.ofChar?_eq_some_iff.2 hq] at h
        cases h
      simp [illegal, eq_comm]

end Options

end HtmlPrinter
