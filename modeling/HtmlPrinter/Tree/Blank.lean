import HtmlPrinter.Tree.Basic

/-!
# Blank text

Text made of spaces only stands between elements without meaning anything. The spaces are the
five of the markup standard.
-/

namespace HtmlPrinter

def isSpace (c : Char) : Bool :=
  c == ' ' || c == '\t' || c == '\n' || c == '\r' || c == '\x0c'

namespace Node

/-- Decides whether a node is text without anything but spaces; empty text is. -/
def isBlank : Node → Bool
  | .text content => content.toList.all isSpace
  | _ => false

def startsBlank : Node → Bool
  | .text content => content.toList.head?.any isSpace
  | _ => false

/-- Decides whether a node may follow a left-out tag: no comment and no leading space, which would
end up on the other side of the tag. -/
def isFirm (node : Node) : Bool := !node.isComment && !node.startsBlank

theorem isBlank_empty : (Node.text "").isBlank = true := by decide

end Node

end HtmlPrinter
