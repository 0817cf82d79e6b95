import HtmlPrinter.OrderedMap
import HtmlPrinter.Text.Hexadecimal

/-!
# Character references

The reference that stands for a character: `&amp;` for the ampersand, a configured name for a
character that has one, and the hexadecimal code point for all others.
-/

namespace HtmlPrinter

/-- Maps characters to the names of their references, written without ampersand and semicolon. -/
abbrev Entities := OrderedMap Char String

namespace Entities

def referenceName (entities : Entities) (c : Char) : String :=
  if c = '&' then "amp"
  else
    match entities.get? c with
    | some name => name
    | none => String.ofList ('#' :: 'x' :: Hexadecimal.digits c.toNat)

def reference (entities : Entities) (c : Char) : String :=
  "&" ++ entities.referenceName c ++ ";"

@[simp] theorem reference_ampersand (entities : Entities) : entities.reference '&' = "&amp;" := by
  simp [reference, referenceName]

end Entities

end HtmlPrinter
