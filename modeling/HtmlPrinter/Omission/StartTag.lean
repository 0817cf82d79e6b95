import HtmlPrinter.Omission.EndTag

/-!
# Implied start tags

The start tag of some elements may be left out when their first child implies it. `startRules`
gives the rule of each such element, and `StartRule.holds` reads a rule for an element at a
place. Attributes keep a start tag in any case; who asks has checked that there are none.
-/

namespace HtmlPrinter

inductive StartRule where
  /-- The first child, blank text aside, is no comment. -/
  | document
  /-- There are children, and among them at most one title and one base. -/
  | metadata
  /-- The first child is firm and none of the elements that would go to the metadata. -/
  | content
  /-- The first child, blank text aside when `skipBlank`, is the element `child`, and the part
  of the table in front of it, if it is one of `after`, has an end tag. -/
  | tablePart (child : String) (skipBlank : Bool) (after : List String)
deriving DecidableEq, Repr

def startRules : List (String × StartRule) :=
  [("html", .document), ("head", .metadata), ("body", .content),
    ("colgroup", .tablePart "col" false ["colgroup"]),
    ("tbody", .tablePart "tr" true ["thead", "tbody"])]

/-- Lists the elements that would go to the metadata at the start of a body. -/
def metadataElements : List String := ["meta", "link", "script", "style", "template"]

def startRule? (tag : String) : Option StartRule :=
  (startRules.find? fun entry => sameName tag entry.1).map Prod.snd

def Element.firstChild? (e : Element) : Option Node := e.children.head?

def Element.firstSolid? (e : Element) : Option Node := e.children.find? (!·.isBlank)

/-- Decides whether the previous sibling, blank text aside, is one of the given elements and has
its own end tag implied, so that it is still open at the place. -/
def Place.afterOpen (place : Place) (tags : List String) : Bool :=
  match place.previousSolid? with
  | some (.element previous, index) =>
      nameIn previous.tag tags && previous.endTagImplied (place.atIndex index)
  | _ => false

def StartRule.holds (e : Element) (place : Place) : StartRule → Bool
  | document => e.firstSolid?.all (!·.isComment)
  | metadata =>
      !e.children.isEmpty && decide (e.children.countP (Node.isElementNamed "title") ≤ 1) &&
        decide (e.children.countP (Node.isElementNamed "base") ≤ 1)
  | content => e.firstChild?.all fun first => first.isFirm && !first.isOneOf metadataElements
  | tablePart child skipBlank after =>
      !place.afterOpen after &&
        (if skipBlank then e.firstSolid? else e.firstChild?).any (Node.isElementNamed child)

def Element.startTagImplied (e : Element) (place : Place) : Bool :=
  (startRule? e.tag).any (StartRule.holds e place)

theorem startRule?_congr {left right : String} (h : sameName left right = true) :
    startRule? left = startRule? right := by
  simp only [startRule?, sameName_congr h]

end HtmlPrinter
