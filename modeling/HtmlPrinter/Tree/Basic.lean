import HtmlPrinter.Attributes
import HtmlPrinter.Text.Caseless

/-!
# Trees

The markup trees that are printed: roots and elements hold children, the other nodes hold text.
`Node.size` counts nodes and bounds every walk over a tree.
-/

namespace HtmlPrinter

mutual

inductive Node where
  /-- A document or a fragment, which stands for its children. -/
  | root (children : List Node)
  | element (element : Element)
  | text (content : String)
  | comment (content : String)
  | doctype (name : String)
  /-- Markup that is already written, to be trusted only when the configuration says so. -/
  | raw (markup : String)

structure Element where
  tag : String
  attrs : Attributes := ∅
  children : List Node := []

end

instance : Inhabited Element := ⟨⟨"", ∅, []⟩⟩

instance : Inhabited Node := ⟨.root []⟩

namespace Element

/-- Decides whether an element has a custom tag name, one with a hyphen. -/
def isCustom (e : Element) : Bool := e.tag.toList.contains '-'

def attr? (e : Element) (name : String) : Option Value := e.attrs.get? name

def setAttr (e : Element) (name : String) (value : Value) : Element :=
  { e with attrs := e.attrs.insert name value }

def pushChild (e : Element) (child : Node) : Element :=
  { e with children := e.children ++ [child] }

def pushText (e : Element) (content : String) : Element := e.pushChild (.text content)

end Element

namespace Node

def children : Node → List Node
  | .root children => children
  | .element e => e.children
  | _ => []

def element? : Node → Option Element
  | .element e => some e
  | _ => none

def isComment : Node → Bool
  | .comment _ => true
  | _ => false

def isElementNamed (tag : String) : Node → Bool
  | .element e => sameName e.tag tag
  | _ => false

def isOneOf (tags : List String) : Node → Bool
  | .element e => nameIn e.tag tags
  | _ => false

mutual

/-- Concatenates the character data below a node in document order. -/
def textContent : Node → String
  | .root children => textContentList children
  | .element ⟨_, _, children⟩ => textContentList children
  | .text content => content
  | .comment _ | .doctype _ | .raw _ => ""

def textContentList : List Node → String
  | [] => ""
  | node :: rest => textContent node ++ textContentList rest

end

theorem textContent_element (e : Element) :
    (Node.element e).textContent = textContentList e.children := by
  cases e
  simp [textContent]

mutual

def size : Node → Nat
  | .root children => sizeList children + 1
  | .element ⟨_, _, children⟩ => sizeList children + 1
  | .text _ | .comment _ | .doctype _ | .raw _ => 1

def sizeList : List Node → Nat
  | [] => 0
  | node :: rest => size node + sizeList rest

end

theorem size_element (e : Element) : (Node.element e).size = sizeList e.children + 1 := by
  cases e
  simp [size]

end Node

def Element.textContent (e : Element) : String := (Node.element e).textContent

end HtmlPrinter
