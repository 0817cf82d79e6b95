import HtmlPrinter.Tag.Basic
import HtmlPrinter.Text.ScriptGuard

/-!
# Pieces of markup

A printed tree is a sequence of pieces, each a tag or a leaf in its surroundings.
`Config.pieces` gives the pieces of a tree by recursion on it, and `Config.pieceText` the text of
each, so that `Config.markup` says what is printed without saying how. `printPiece_eq_write` says
that printing a piece to a sink writes its text.
-/

namespace HtmlPrinter

/-- Represents one piece of markup together with what its text depends on. -/
inductive Piece where
  | startTag (dialect : Dialect) (element : Element)
  | endTag (tag : String)
  | text (parent : Option String) (content : String)
  | comment (content : String)
  | doctype (name : String)
  | raw (markup : String)

/-- Decides whether text below an element stands for itself, without references. -/
def holdsRawText (tag : String) : Bool := nameIn tag ["script", "style"]

namespace Config

/-- Decides whether the text below an element is guarded against an early end tag. -/
def guardsText (cfg : Config) (tag : String) : Bool :=
  cfg.escapeScriptEndTags && sameName tag "script"

def pieceText (cfg : Config) : Piece → String
  | .startTag dialect e => cfg.startTag dialect e
  | .endTag tag => HtmlPrinter.endTag tag
  | .text (some tag) content =>
      if cfg.guardsText tag then ScriptGuard.guarded content
      else if holdsRawText tag then content
      else (cfg.escaping .text).escaped content
  | .text none content => (cfg.escaping .text).escaped content
  | .comment content => "<!--" ++ content ++ "-->"
  | .doctype name => "<!doctype " ++ (if name.isEmpty then "html" else name) ++ ">"
  | .raw markup =>
      if cfg.allowDangerousHtml then markup else (cfg.escaping .text).escaped markup

def printPiece (cfg : Config) : Piece → Printer Unit
  | .startTag dialect e => cfg.printStartTag dialect e
  | .endTag tag => HtmlPrinter.printEndTag tag
  | .text (some tag) content =>
      if cfg.guardsText tag then ScriptGuard.print content
      else if holdsRawText tag then write content
      else (cfg.escaping .text).print content
  | .text none content => (cfg.escaping .text).print content
  | .comment content => do
      write "<!--"
      write content
      write "-->"
  | .doctype name => do
      write "<!doctype "
      write (if name.isEmpty then "html" else name)
      write ">"
  | .raw markup =>
      if cfg.allowDangerousHtml then write markup else (cfg.escaping .text).print markup

theorem printPiece_eq_write (cfg : Config) (piece : Piece) :
    cfg.printPiece piece = write (cfg.pieceText piece) := by
  cases piece with
  | startTag dialect e => exact cfg.printStartTag_eq_write dialect e
  | endTag tag => exact printEndTag_eq_write tag
  | text parent content =>
      cases parent with
      | none => simp [printPiece, pieceText, Escaping.print_eq_write]
      | some tag =>
          by_cases hg : cfg.guardsText tag = true
          · simp [printPiece, pieceText, hg, ScriptGuard.print_eq_write]
          · by_cases hr : holdsRawText tag = true <;>
              simp [printPiece, pieceText, hg, hr, Escaping.print_eq_write]
  | raw markup =>
      by_cases h : cfg.allowDangerousHtml = true <;>
        simp [printPiece, pieceText, h, Escaping.print_eq_write]
  | comment content => simp [printPiece, pieceText, write_append]
  | doctype name => simp [printPiece, pieceText, write_append]

def startPieces (cfg : Config) (dialect : Dialect) (e : Element) (place : Place) : List Piece :=
  if cfg.omitsStartTag dialect e place then [] else [.startTag dialect e]

def endPieces (cfg : Config) (dialect : Dialect) (e : Element) (place : Place) : List Piece :=
  if cfg.omitsEndTag dialect e place then [] else [.endTag e.tag]

mutual

def pieces (cfg : Config) (dialect : Dialect) (place : Place) : Node → List Piece
  | .root children => piecesFrom cfg dialect none children 0 children
  | .element ⟨tag, attrs, children⟩ =>
      let e : Element := ⟨tag, attrs, children⟩
      let inner := dialect.enter tag
      cfg.startPieces inner e place ++
        if cfg.isLeaf inner e then []
        else piecesFrom cfg inner (some tag) children 0 children ++ cfg.endPieces inner e place
  | .text content => [.text place.parent content]
  | .comment content => [.comment content]
  | .doctype name => [.doctype name]
  | .raw markup => [.raw markup]

def piecesFrom (cfg : Config) (dialect : Dialect) (parent : Option String)
    (siblings : List Node) (index : Nat) : List Node → List Piece
  | [] => []
  | node :: rest =>
      pieces cfg dialect ⟨parent, siblings, index⟩ node ++
        piecesFrom cfg dialect parent siblings (index + 1) rest

end

def piecesText (cfg : Config) : List Piece → String
  | [] => ""
  | piece :: rest => cfg.pieceText piece ++ cfg.piecesText rest

def markup (cfg : Config) (dialect : Dialect) (place : Place) (node : Node) : String :=
  cfg.piecesText (cfg.pieces dialect place node)

theorem piecesText_append (cfg : Config) (first second : List Piece) :
    cfg.piecesText (first ++ second) = cfg.piecesText first ++ cfg.piecesText second := by
  induction first with
  | nil => simp [piecesText]
  | cons piece rest ih => simp [piecesText, ih, String.append_assoc]

end Config

end HtmlPrinter
