import HtmlPrinter.Tree.Blank

/-!
# Places in a tree

A place says where an element stands: the tag name of its parent, the children of that parent,
and the position among them. Which tags of an element are implied depends on its place only
through the parent, the siblings behind it, and the nearest one in front.
-/

namespace HtmlPrinter

/-- Tells where an element stands. -/
structure Place where
  parent : Option String := none
  siblings : List Node := []
  /-- Counts nodes of a list held in memory, so it is below the maximum of its machine type and
  `index + 1` does not overflow. -/
  index : Nat := 0

namespace Place

def alone (node : Node) : Place := ⟨none, [node], 0⟩

/-- Places an element outside any tree. -/
def detached : Place := ⟨none, [], 0⟩

def atIndex (place : Place) (index : Nat) : Place := { place with index := index }

def following (place : Place) : List Node := place.siblings.drop (place.index + 1)

/-- Lists the siblings in front of the position; a position past the end has none. -/
def preceding (place : Place) : List Node :=
  if place.index ≤ place.siblings.length then place.siblings.take place.index else []

def next? (place : Place) : Option Node := place.following.head?

def nextSolid? (place : Place) : Option Node := place.following.find? (!·.isBlank)

def previousSolid? (place : Place) : Option (Node × Nat) :=
  place.preceding.zipIdx.reverse.find? (!·.1.isBlank)

theorem following_of_drop (parent : Option String) {siblings nodes : List Node} {index : Nat}
    {node : Node} (h : siblings.drop index = node :: nodes) :
    (Place.mk parent siblings index).following = nodes := by
  rw [following, ← List.tail_drop, h, List.tail_cons]

end Place

end HtmlPrinter
