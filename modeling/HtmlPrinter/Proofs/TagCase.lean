import HtmlPrinter.Proofs.DocumentOrder
import HtmlPrinter.Proofs.LetterCase
import HtmlPrinter.Proofs.Looks
import HtmlPrinter.Tree.Equality

/-!
# The case of tag names

Trees that differ only in the case of tag names are printed alike. `foldTags` lowers the tag names
of a tree, of a place, of a piece or of a task, and what is decided on a tag is the same before and
after: whether tags are implied, how they are written, and what the walk does next. So every step of
the walk over a folded tree is the folded step, and the markup of trees with the same folded tree
differs at most in case; `foldName_render_congr` says so.
-/

namespace HtmlPrinter

namespace Node

mutual

/-- Lowers the tag names in a tree. -/
def foldTags : Node → Node
  | .root children => .root (foldTagsList children)
  | .element ⟨tag, attrs, children⟩ => .element ⟨lowered tag, attrs, foldTagsList children⟩
  | .text content => .text content
  | .comment content => .comment content
  | .doctype name => .doctype name
  | .raw markup => .raw markup

def foldTagsList : List Node → List Node
  | [] => []
  | node :: rest => foldTags node :: foldTagsList rest

end

private theorem foldTagsList_eq_map (nodes : List Node) :
    foldTagsList nodes = nodes.map foldTags := by
  induction nodes with
  | nil => rfl
  | cons node rest ih => rw [foldTagsList, ih, List.map_cons]

end Node

/-- Lowers the tag names of an element and of everything below it. -/
def Element.foldTags (e : Element) : Element :=
  ⟨lowered e.tag, e.attrs, e.children.map Node.foldTags⟩

def Place.foldTags (place : Place) : Place :=
  ⟨place.parent.map lowered, place.siblings.map Node.foldTags, place.index⟩

namespace Node

private theorem foldTags_root (children : List Node) :
    (Node.root children).foldTags = .root (children.map foldTags) := by
  rw [foldTags, foldTagsList_eq_map]

private theorem foldTags_element (e : Element) :
    (Node.element e).foldTags = .element e.foldTags := by
  obtain ⟨tag, attrs, children⟩ := e
  rw [foldTags, foldTagsList_eq_map]
  rfl

theorem look_foldTags (node : Node) : node.foldTags.look = node.look := by
  cases node with
  | element e =>
      have name : foldName e.foldTags.tag = foldName e.tag := foldName_lowered e.tag
      rw [foldTags_element, look, look, element?, element?, Option.map_some, Option.map_some, name]
      rfl
  | root children => rw [foldTags_root]; rfl
  | _ => rw [foldTags]

private theorem map_look_foldTags (nodes : List Node) :
    (nodes.map foldTags).map look = nodes.map look := by
  rw [List.map_map]
  exact List.map_congr_left fun node _ => look_foldTags node

end Node

private theorem Place.alike_foldTags (place : Place) : place.foldTags.Alike place where
  parent := by
    rw [foldTags, Option.map_map]
    exact Option.map_congr fun tag _ => foldName_lowered tag
  index := rfl
  siblings := Node.map_look_foldTags place.siblings

private theorem Element.endTagImplied_foldTags (e : Element) (place : Place) :
    e.foldTags.endTagImplied place.foldTags = e.endTagImplied place := by
  have alike := place.alike_foldTags
  exact endTagImplied_congr_look (foldName_lowered e.tag) alike.parent alike.following

private theorem Element.startTagImplied_foldTags (e : Element) (place : Place) :
    e.foldTags.startTagImplied place.foldTags = e.startTagImplied place :=
  startTagImplied_congr_look (foldName_lowered e.tag) (Node.map_look_foldTags e.children)
    place.alike_foldTags.afterOpen

private theorem Dialect.enter_lowered (dialect : Dialect) (tag : String) :
    dialect.enter (lowered tag) = dialect.enter tag := by
  rw [enter, sameName_lowered, enter]

/-- Lowers the tag names in a piece. -/
def Piece.foldTags : Piece → Piece
  | .startTag dialect e => .startTag dialect e.foldTags
  | .endTag tag => .endTag (lowered tag)
  | .text parent content => .text (parent.map lowered) content
  | .comment content => .comment content
  | .doctype name => .doctype name
  | .raw markup => .raw markup

/-- Lowers the tag names in a task. -/
def Task.foldTags : Task → Task
  | .visit node place dialect => .visit node.foldTags place.foldTags dialect
  | .leave e place dialect => .leave e.foldTags place.foldTags dialect

namespace Config

variable (cfg : Config) (dialect : Dialect) (e : Element) (place : Place)

private theorem isVoid_lowered (tag : String) : cfg.isVoid (lowered tag) = cfg.isVoid tag := by
  rw [isVoid, nameIn_lowered, isVoid]

private theorem selfCloses_foldTags :
    cfg.selfCloses dialect e.foldTags = cfg.selfCloses dialect e := by
  cases dialect with
  | html => simp [selfCloses, Element.foldTags, isVoid_lowered]
  | svg => simp [selfCloses, Element.foldTags]

private theorem isLeaf_foldTags : cfg.isLeaf dialect e.foldTags = cfg.isLeaf dialect e := by
  cases dialect with
  | html => simp [isLeaf, Element.foldTags, isVoid_lowered]
  | svg => simp [isLeaf, selfCloses_foldTags]

private theorem omitsStartTag_foldTags :
    cfg.omitsStartTag dialect e.foldTags place.foldTags = cfg.omitsStartTag dialect e place := by
  rw [omitsStartTag, Element.startTagImplied_foldTags, isEmpty_layOut, omitsStartTag,
    isEmpty_layOut]
  rfl

private theorem omitsEndTag_foldTags :
    cfg.omitsEndTag dialect e.foldTags place.foldTags = cfg.omitsEndTag dialect e place := by
  rw [omitsEndTag, Element.endTagImplied_foldTags, omitsEndTag]

private theorem startPieces_foldTags :
    cfg.startPieces dialect e.foldTags place.foldTags =
      (cfg.startPieces dialect e place).map Piece.foldTags := by
  unfold startPieces
  rw [omitsStartTag_foldTags]
  split <;> rfl

private theorem endPieces_foldTags :
    cfg.endPieces dialect e.foldTags place.foldTags =
      (cfg.endPieces dialect e place).map Piece.foldTags := by
  unfold endPieces
  rw [omitsEndTag_foldTags]
  split <;> rfl

private theorem foldName_startTag :
    foldName (cfg.startTag dialect e.foldTags) = foldName (cfg.startTag dialect e) := by
  have custom : e.foldTags.isCustom = e.isCustom := contains_lowered (by decide) e.tag
  have attrs : cfg.attributeTexts dialect e.foldTags = cfg.attributeTexts dialect e := rfl
  have tag : foldName e.foldTags.tag = foldName e.tag := foldName_lowered e.tag
  simp only [startTag, foldName_append, custom, attrs, tag, selfCloses_foldTags]

/-- Lowering the tag names changes the text of a piece in case only. -/
theorem foldName_pieceText (piece : Piece) :
    foldName (cfg.pieceText piece.foldTags) = foldName (cfg.pieceText piece) := by
  cases piece with
  | startTag dialect e => exact cfg.foldName_startTag dialect e
  | endTag tag =>
      simp only [Piece.foldTags, pieceText, HtmlPrinter.endTag, foldName_append, foldName_lowered]
  | text parent content =>
      cases parent with
      | none => rfl
      | some tag =>
          have guards : cfg.guardsText (lowered tag) = cfg.guardsText tag := by
            rw [guardsText, sameName_lowered, guardsText]
          have holds : holdsRawText (lowered tag) = holdsRawText tag := nameIn_lowered tag _
          simp only [Piece.foldTags, Option.map_some, pieceText, guards, holds]
  | comment content => rfl
  | doctype name => rfl
  | raw markup => rfl

private theorem foldName_piecesText (ps : List Piece) :
    foldName (cfg.piecesText (ps.map Piece.foldTags)) = foldName (cfg.piecesText ps) := by
  induction ps with
  | nil => rfl
  | cons piece rest ih =>
      rw [List.map_cons, piecesText, piecesText, foldName_append, foldName_append,
        foldName_pieceText, ih]

end Config

namespace Task

variable (cfg : Config)

private theorem visitsFrom_foldTags (parent : Option String) (siblings : List Node)
    (dialect : Dialect) (index : Nat) (nodes : List Node) :
    visitsFrom (parent.map lowered) (siblings.map Node.foldTags) dialect index
        (nodes.map Node.foldTags) =
      (visitsFrom parent siblings dialect index nodes).map foldTags := by
  induction nodes generalizing index with
  | nil => rfl
  | cons node rest ih => rw [List.map_cons, visitsFrom, ih, visitsFrom, List.map_cons]; rfl

private theorem pieces_foldTags (task : Task) :
    task.foldTags.pieces cfg = (task.pieces cfg).map Piece.foldTags := by
  cases task with
  | leave e place dialect => exact cfg.endPieces_foldTags dialect e place
  | visit node place dialect =>
      cases node with
      | root children => rw [foldTags, Node.foldTags_root]; rfl
      | element e =>
          rw [foldTags, Node.foldTags_element, pieces]
          change cfg.startPieces (dialect.enter (lowered e.tag)) e.foldTags place.foldTags = _
          rw [Dialect.enter_lowered, cfg.startPieces_foldTags]
          rfl
      | _ => simp [foldTags, Node.foldTags, pieces, Piece.foldTags, Place.foldTags]

private theorem next_foldTags (task : Task) :
    task.foldTags.next cfg = (task.next cfg).map foldTags := by
  cases task with
  | leave e place dialect => rfl
  | visit node place dialect =>
      cases node with
      | root children =>
          rw [foldTags, Node.foldTags_root]
          exact visitsFrom_foldTags none children dialect 0 children
      | element e =>
          have tag : e.foldTags.tag = lowered e.tag := rfl
          have below :=
            visitsFrom_foldTags (some e.tag) e.children (dialect.enter e.tag) 0 e.children
          rw [foldTags, Node.foldTags_element, next, next, tag, Dialect.enter_lowered,
            cfg.isLeaf_foldTags]
          split
          · rfl
          · rw [List.map_append]
            exact congrArg (· ++ _) below
      | _ => simp [foldTags, Node.foldTags, next]

private theorem flatMap_tour_foldTags (tasks : List Task) :
    (tasks.map foldTags).flatMap (tour cfg) = (tasks.flatMap (tour cfg)).map foldTags := by
  -- by induction on the walk: its first task is replaced by those it gives rise to
  fun_induction cfg.run tasks with
  | case1 => rfl
  | case2 task rest ih =>
      rw [List.map_cons, List.flatMap_cons, List.flatMap_cons, tour_eq_cons, tour_eq_cons cfg task,
        next_foldTags]
      rw [List.map_append, List.flatMap_append, List.flatMap_append] at ih
      simp only [List.map_append, List.map_cons, List.cons_append] at ih ⊢
      rw [ih]

private theorem nodeTour_foldTags (node : Node) (place : Place) (dialect : Dialect) :
    nodeTour cfg dialect place.foldTags node.foldTags =
      (nodeTour cfg dialect place node).map foldTags := by
  simpa [tour, foldTags] using flatMap_tour_foldTags cfg [.visit node place dialect]

end Task

namespace Config

theorem foldName_render_foldTags (cfg : Config) (node : Node) :
    foldName (cfg.render node.foldTags) = foldName (cfg.render node) := by
  have folded : (Place.alone node).foldTags = .alone node.foldTags := rfl
  have pieces : cfg.pieces .html (.alone node.foldTags) node.foldTags =
      (cfg.pieces .html (.alone node) node).map Piece.foldTags := by
    rw [← Task.flatMap_pieces_nodeTour, ← Task.flatMap_pieces_nodeTour, ← folded,
      Task.nodeTour_foldTags, List.flatMap_map, List.map_flatMap]
    simp only [Task.pieces_foldTags]
  rw [render_eq_markup, render_eq_markup, markup, markup, pieces, foldName_piecesText]

/-- The case of tag names decides nothing. Of two trees that differ only in it, the walk does the
same tasks, and what is printed is the same but for case; and the same tags are implied at places
that differ only in it, be it in the parent or in a sibling. -/
theorem foldName_render_congr (cfg : Config) {a b : Node} (h : a.foldTags = b.foldTags) :
    foldName (cfg.render a) = foldName (cfg.render b) ∧
    (Task.nodeTour cfg .html (.alone a) a).map Task.foldTags =
      (Task.nodeTour cfg .html (.alone b) b).map Task.foldTags ∧
    ∀ (e f : Element) (p q : Place), e.foldTags = f.foldTags → p.foldTags = q.foldTags →
      e.startTagImplied p = f.startTagImplied q ∧ e.endTagImplied p = f.endTagImplied q := by
  refine ⟨?_, ?_, ?_⟩
  · rw [← cfg.foldName_render_foldTags a, h, cfg.foldName_render_foldTags b]
  · have alone : (Place.alone a).foldTags = (Place.alone b).foldTags := by
      simp [Place.foldTags, Place.alone, h]
    rw [← Task.nodeTour_foldTags, ← Task.nodeTour_foldTags, h, alone]
  · intro e f p q he hp
    constructor
    · rw [← e.startTagImplied_foldTags p, he, hp, f.startTagImplied_foldTags q]
    · rw [← e.endTagImplied_foldTags p, he, hp, f.endTagImplied_foldTags q]

theorem foldName_render_congr_list :
    let cfg : Config := { omitOptionalTags := true }
    let item (tag : String) : Element := ⟨tag, ∅, [.text "x"]⟩
    let a : Node := .element ⟨"UL", ∅, [.element (item "LI"), .element (item "li")]⟩
    let b : Node := .element ⟨"ul", ∅, [.element (item "li"), .element (item "Li")]⟩
    a.foldTags = b.foldTags ∧ cfg.render a = "<UL><LI>x<li>x</UL>" ∧
      foldName (cfg.render a) = foldName (cfg.render b) ∧
      (item "P").endTagImplied ⟨some "VIDEO", [.element (item "P")], 0⟩ =
        (item "p").endTagImplied ⟨some "video", [.element (item "p")], 0⟩ := by
  intro cfg item a b
  have alike : a.foldTags = b.foldTags := by decide
  obtain ⟨same, -, implied⟩ := cfg.foldName_render_congr alike
  have lower : lowered "P" = lowered "p" ∧ lowered "VIDEO" = lowered "video" := by decide +kernel
  have paragraph : (item "P").foldTags = (item "p").foldTags := by
    simp [item, Element.foldTags, lower.1]
  have place : (Place.mk (some "VIDEO") [.element (item "P")] 0).foldTags =
      (Place.mk (some "video") [.element (item "p")] 0).foldTags := by
    simp [Place.foldTags, Node.foldTags_element, paragraph, lower.2]
  exact ⟨alike, by decide +kernel, same, (implied _ _ _ _ paragraph place).2⟩

end Config

end HtmlPrinter
