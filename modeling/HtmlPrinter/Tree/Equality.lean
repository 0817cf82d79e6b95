import HtmlPrinter.Tree.Basic

/-!
# Equality of trees

Two trees are equal when they have the same shape and the same text everywhere, the order of
attributes included. `same_iff` says that the structural comparison decides equality.
-/

namespace HtmlPrinter.Node

mutual

def same : Node → Node → Bool
  | .root left, .root right => sameList left right
  | .element ⟨tag, attrs, left⟩, .element ⟨tag', attrs', right⟩ =>
      decide (tag = tag') && decide (attrs = attrs') && sameList left right
  | .text left, .text right => decide (left = right)
  | .comment left, .comment right => decide (left = right)
  | .doctype left, .doctype right => decide (left = right)
  | .raw left, .raw right => decide (left = right)
  | _, _ => false

def sameList : List Node → List Node → Bool
  | [], [] => true
  | left :: lefts, right :: rights => same left right && sameList lefts rights
  | _, _ => false

end

mutual

theorem same_iff : (left right : Node) → (same left right = true ↔ left = right)
  | .root left, right => by
      cases right <;> simp [same, sameList_iff left]
  | .element ⟨tag, attrs, left⟩, right => by
      cases right with
      | element e =>
          cases e
          simp [same, sameList_iff left, and_assoc]
      | _ => simp [same]
  | .text _, right | .comment _, right | .doctype _, right | .raw _, right => by
      cases right <;> simp [same]

theorem sameList_iff : (left right : List Node) → (sameList left right = true ↔ left = right)
  | [], right => by
      cases right <;> simp [sameList]
  | left :: lefts, right => by
      cases right with
      | nil => simp [sameList]
      | cons r rights => simp [sameList, same_iff left r, sameList_iff lefts rights]

end

instance : DecidableEq Node := fun left right =>
  decidable_of_iff (same left right = true) (same_iff left right)

end HtmlPrinter.Node
