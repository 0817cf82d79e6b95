/-!
# Names compared without case

Tag names and attribute names agree when they differ at most in the case of ASCII letters.
Every comparison of names in this library goes through `sameName`, an equivalence.
-/

namespace HtmlPrinter

/-- Lowers the ASCII capitals of a name and keeps every other character. -/
def foldName (name : String) : List Char := name.toList.map Char.toLower

def sameName (left right : String) : Bool := foldName left == foldName right

def nameIn (name : String) (names : List String) : Bool := names.any (sameName name)

theorem sameName_iff {left right : String} :
    sameName left right = true ↔ foldName left = foldName right := by
  simp [sameName]

theorem sameName_comm (left right : String) : sameName left right = sameName right left := by
  simp [sameName, Bool.beq_comm]

theorem sameName_congr {left right : String} (h : sameName left right = true) (name : String) :
    sameName left name = sameName right name := by
  simp [sameName, sameName_iff.1 h]

theorem nameIn_congr {left right : String} (h : sameName left right = true)
    (names : List String) : nameIn left names = nameIn right names := by
  unfold nameIn
  congr 1
  funext name
  exact sameName_congr h name

end HtmlPrinter
