import HtmlPrinter.Escape.Context
import HtmlPrinter.Escape.Reference

/-!
# Choices of style

The choices that pass unchanged from the options of a user to the configuration of the printer,
and the two legal quotes.
-/

namespace HtmlPrinter

inductive Quote where
  | double
  | single
deriving DecidableEq, Repr

namespace Quote

def char : Quote → Char
  | double => '"'
  | single => '\x27'

def ofChar? (c : Char) : Option Quote :=
  if c = '"' then some double else if c = '\x27' then some single else none

def context : Quote → Context
  | double => .doubleQuoted
  | single => .singleQuoted

theorem ofChar?_eq_some_iff {c : Char} {quote : Quote} :
    ofChar? c = some quote ↔ c = quote.char := by
  cases quote <;> simp only [ofChar?, char]
  · by_cases h : c = '"' <;> by_cases h' : c = '\x27' <;> simp [h, h']
  · by_cases h : c = '"'
    · simp [h]
    · by_cases h' : c = '\x27' <;> simp [h, h']

end Quote

/-- Collects the choices that need no checking. -/
structure Style where
  /-- First characters that mark an attribute name as a flag. -/
  booleanMarks : List Char := ['#']
  customElementIndent : String := "  "
  /-- Escapes only what changes how the markup reads. -/
  allowParseErrors : Bool := false
  /-- Leaves NUL and quotes alone where they are harmless by the standard. -/
  allowDangerousCharacters : Bool := false
  /-- Prints raw markup as it is. -/
  allowDangerousHtml : Bool := false
  omitOptionalTags : Bool := false
  preferUnquoted : Bool := false
  tightAttributes : Bool := false
  tightCommaSeparatedLists : Bool := false
  tightSelfClosing : Bool := false
  /-- Closes the start tags of void elements with a slash. -/
  closeSelfClosing : Bool := false
  /-- Closes the start tags of childless elements in drawings with a slash. -/
  closeEmptyElements : Bool := false
  escapeScriptEndTags : Bool := true
  /-- Names of references to use in place of code points. -/
  entities : Entities := ∅
deriving DecidableEq, Repr, Inhabited

end HtmlPrinter
