/-!
# Slices of a text

A text is kept in bytes, and a part of it is cut out between two byte positions. There is no such
part when a position is inside a character, so cutting can fail.
-/

namespace HtmlPrinter

/-- Lists the bytes a text is kept in. -/
def utf8Bytes (text : String) : List UInt8 := text.toByteArray.data.toList

/-- Cuts a text at two byte positions. There is no slice between positions in the wrong order, nor
at one that is inside a character or behind the end. -/
def slice? (text : String) (start stop : Nat) : Option String :=
  if start ≤ stop ∧ String.Pos.Raw.IsValid text ⟨start⟩ ∧ String.Pos.Raw.IsValid text ⟨stop⟩ then
    some (String.Pos.Raw.extract text ⟨start⟩ ⟨stop⟩)
  else none

end HtmlPrinter
