import HtmlPrinter.Tree.Place

/-!
# Implied end tags

The end tag of some elements may be left out when what follows implies it. `endRules` gives the
rule of each such element, and `EndRule.holds` reads a rule at a place.
-/

namespace HtmlPrinter

inductive EndRule where
  /-- Nothing, or anything but a comment or text that starts with a space. -/
  | boundary
  /-- Nothing, or one of these elements. -/
  | lastOr (tags : List String)
  /-- One of these elements. -/
  | followedBy (tags : List String)
  /-- Nothing at all. -/
  | last
  /-- An element that cannot be inside a paragraph, or nothing in a parent that ends it. -/
  | paragraph
deriving DecidableEq, Repr

def endRules : List (String × EndRule) :=
  [("html", .boundary), ("head", .boundary), ("body", .boundary), ("colgroup", .boundary),
    ("caption", .boundary), ("p", .paragraph), ("li", .lastOr ["li"]),
    ("dt", .followedBy ["dt", "dd"]), ("dd", .lastOr ["dt", "dd"]), ("rt", .lastOr ["rp", "rt"]),
    ("rp", .lastOr ["rp", "rt"]), ("optgroup", .lastOr ["optgroup"]),
    ("option", .lastOr ["option", "optgroup"]), ("menuitem", .lastOr ["menuitem", "hr", "menu"]),
    ("thead", .followedBy ["tbody", "tfoot"]), ("tbody", .lastOr ["tbody", "tfoot"]),
    ("tfoot", .last), ("tr", .lastOr ["tr"]), ("td", .lastOr ["td", "th"]),
    ("th", .lastOr ["td", "th"])]

/-- Lists the elements whose start tag ends an open paragraph. -/
def paragraphEnders : List String :=
  ["address", "article", "aside", "blockquote", "details", "div", "dl", "fieldset", "figcaption",
    "figure", "footer", "form", "h1", "h2", "h3", "h4", "h5", "h6", "header", "hgroup", "hr",
    "main", "menu", "nav", "ol", "p", "pre", "section", "table", "ul"]

/-- Lists the parents whose end does not end a paragraph. -/
def paragraphKeepers : List String := ["a", "audio", "del", "ins", "map", "noscript", "video"]

def endRule? (tag : String) : Option EndRule :=
  (endRules.find? fun entry => sameName tag entry.1).map Prod.snd

def EndRule.holds (place : Place) : EndRule → Bool
  | boundary => place.next?.all Node.isFirm
  | lastOr tags => place.nextSolid?.all (Node.isOneOf tags)
  | followedBy tags => place.nextSolid?.any (Node.isOneOf tags)
  | last => place.nextSolid?.isNone
  | paragraph =>
      match place.nextSolid? with
      | some next => next.isOneOf paragraphEnders
      | none => place.parent.all (!nameIn · paragraphKeepers)

def Element.endTagImplied (e : Element) (place : Place) : Bool :=
  (endRule? e.tag).any (EndRule.holds place)

theorem endRule?_congr {left right : String} (h : sameName left right = true) :
    endRule? left = endRule? right := by
  simp only [endRule?, sameName_congr h]

theorem EndRule.holds_congr {left right : Place} (hp : left.parent = right.parent)
    (hf : left.following = right.following) (rule : EndRule) :
    rule.holds left = rule.holds right := by
  cases rule <;> simp [EndRule.holds, Place.next?, Place.nextSolid?, hp, hf]

end HtmlPrinter
