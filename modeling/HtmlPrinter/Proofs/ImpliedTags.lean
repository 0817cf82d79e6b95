import HtmlPrinter.Proofs.DocumentOrder

/-!
# Leaving out implied tags

Leaving out optional tags takes whole tags out of the markup and touches nothing else. The slots of
a tree are where its pieces stand when no tag is left out: a tag comes with its element, the place
of the element and the tags around it. `Slot.isImplied` says which tags go: none in a drawing, no
start tag that shows an attribute, and otherwise those that the rules imply.
`pieces_omitOptionalTags` says that the other slots are written, in the same order and with the same
text.
-/

namespace HtmlPrinter

/-- Decides whether one of some elements is a drawing. -/
def hasDrawing (tags : List String) : Bool := tags.any fun tag => sameName tag "svg"

/-- Gives the dialect of what stands below elements with the given tags. -/
def Dialect.below (tags : List String) : Dialect := if hasDrawing tags then .svg else .html

private theorem Dialect.below_cons (tag : String) (tags : List String) :
    Dialect.below (tag :: tags) = (Dialect.below tags).enter tag := by
  by_cases htag : sameName tag "svg" = true
  · simp [below, hasDrawing, enter, htag]
  · simp [below, hasDrawing, enter, htag]

/-- Represents where a piece stands when no tag is left out; `around` lists the tags of the
elements around an element, from the innermost one outwards. -/
inductive Slot where
  | startTag (element : Element) (place : Place) (around : List String)
  | endTag (element : Element) (place : Place) (around : List String)
  | leaf (piece : Piece)

namespace Slot

def piece : Slot → Piece
  | startTag e _ around => .startTag (.below (e.tag :: around)) e
  | endTag e _ _ => .endTag e.tag
  | leaf piece => piece

/-- Decides whether a tag is left out where optional tags are. -/
def isImplied : Slot → Bool
  | startTag e place around =>
      !hasDrawing (e.tag :: around) && e.attrs.entries.all (·.2 == .flag false) &&
        e.startTagImplied place
  | endTag e place around => !hasDrawing (e.tag :: around) && e.endTagImplied place
  | leaf _ => false

/-- Decides whether the piece in a slot is written. -/
def isWritten (omitting : Bool) (slot : Slot) : Bool := !(omitting && slot.isImplied)

end Slot

namespace Config

mutual

/-- Lists the slots of a node that stands at a place below elements with the given tags. -/
def slots (cfg : Config) (around : List String) (place : Place) : Node → List Slot
  | .root children => slotsFrom cfg around none children 0 children
  | .element ⟨tag, attrs, children⟩ =>
      let e : Element := ⟨tag, attrs, children⟩
      .startTag e place around ::
        if cfg.isLeaf (.below (tag :: around)) e then []
        else slotsFrom cfg (tag :: around) (some tag) children 0 children ++
          [.endTag e place around]
  | .text content => [.leaf (.text place.parent content)]
  | .comment content => [.leaf (.comment content)]
  | .doctype name => [.leaf (.doctype name)]
  | .raw markup => [.leaf (.raw markup)]

def slotsFrom (cfg : Config) (around : List String) (parent : Option String)
    (siblings : List Node) (index : Nat) : List Node → List Slot
  | [] => []
  | node :: rest =>
      slots cfg around ⟨parent, siblings, index⟩ node ++
        slotsFrom cfg around parent siblings (index + 1) rest

end

private theorem attributeText?_eq_none_iff {cfg : Config} {dialect : Dialect} {name : String}
    {value : Value} : cfg.attributeText? dialect name value = none ↔ value = .flag false := by
  cases value with
  | flag on => cases on <;> simp [attributeText?]
  | _ => simp [attributeText?]

private theorem isEmpty_attributeTexts (cfg : Config) (dialect : Dialect) (e : Element) :
    (cfg.attributeTexts dialect e).isEmpty = e.attrs.entries.all (·.2 == .flag false) := by
  rw [Bool.eq_iff_iff, List.isEmpty_iff, attributeTexts, List.filterMap_eq_nil_iff,
    List.all_eq_true]
  simp only [attributeText?_eq_none_iff, beq_iff_eq]

private theorem omits_below (cfg : Config) (tags : List String) :
    cfg.omits (.below tags) = (cfg.omitOptionalTags && !hasDrawing tags) := by
  by_cases h : hasDrawing tags = true
  · simp [Dialect.below, h]
  · simp [Dialect.below, omits, h]

variable (cfg : Config) (around : List String) (place : Place) (e : Element)

private theorem omitsStartTag_below :
    cfg.omitsStartTag (.below (e.tag :: around)) e place =
      !(Slot.startTag e place around).isWritten cfg.omitOptionalTags := by
  rw [omitsStartTag, omits_below, isEmpty_layOut, isEmpty_attributeTexts, Slot.isWritten,
    Slot.isImplied, Bool.not_not]
  simp only [Bool.and_assoc]

private theorem omitsEndTag_below :
    cfg.omitsEndTag (.below (e.tag :: around)) e place =
      !(Slot.endTag e place around).isWritten cfg.omitOptionalTags := by
  rw [omitsEndTag, omits_below, Slot.isWritten, Slot.isImplied, Bool.not_not, Bool.and_assoc]

/-- Lists the pieces that are written for some slots. -/
def writtenPieces (slots : List Slot) : List Piece :=
  (slots.filter (Slot.isWritten cfg.omitOptionalTags)).map Slot.piece

private theorem writtenPieces_append (first second : List Slot) :
    cfg.writtenPieces (first ++ second) = cfg.writtenPieces first ++ cfg.writtenPieces second := by
  simp [writtenPieces]

private theorem startPieces_below :
    cfg.startPieces (.below (e.tag :: around)) e place =
      cfg.writtenPieces [.startTag e place around] := by
  cases h : (Slot.startTag e place around).isWritten cfg.omitOptionalTags <;>
    simp [startPieces, omitsStartTag_below, writtenPieces, h, Slot.piece]

private theorem endPieces_below :
    cfg.endPieces (.below (e.tag :: around)) e place =
      cfg.writtenPieces [.endTag e place around] := by
  cases h : (Slot.endTag e place around).isWritten cfg.omitOptionalTags <;>
    simp [endPieces, omitsEndTag_below, writtenPieces, h, Slot.piece]

mutual

theorem pieces_below (cfg : Config) (around : List String) (place : Place) :
    (node : Node) →
      cfg.pieces (.below around) place node = cfg.writtenPieces (cfg.slots around place node)
  | .root children => by
      rw [pieces, slots, piecesFrom_below cfg around none children 0 children]
  | .element ⟨tag, attrs, children⟩ => by
      have started := startPieces_below cfg around place ⟨tag, attrs, children⟩
      have ended := endPieces_below cfg around place ⟨tag, attrs, children⟩
      have below := piecesFrom_below cfg (tag :: around) (some tag) children 0 children
      simp only [Dialect.below_cons] at started ended below
      rw [pieces, slots, ← List.singleton_append, writtenPieces_append, started,
        Dialect.below_cons]
      by_cases hleaf : cfg.isLeaf ((Dialect.below around).enter tag) ⟨tag, attrs, children⟩ = true
      · rw [if_pos hleaf, if_pos hleaf]
        rfl
      · rw [if_neg hleaf, if_neg hleaf, writtenPieces_append, below, ended]
  | .text _ | .comment _ | .doctype _ | .raw _ => by
      simp [pieces, slots, writtenPieces, Slot.isWritten, Slot.isImplied, Slot.piece]

private theorem piecesFrom_below (cfg : Config) (around : List String) (parent : Option String)
    (siblings : List Node) (index : Nat) :
    (nodes : List Node) →
      cfg.piecesFrom (.below around) parent siblings index nodes =
        cfg.writtenPieces (cfg.slotsFrom around parent siblings index nodes)
  | [] => rfl
  | node :: rest => by
      rw [piecesFrom, slotsFrom, writtenPieces_append,
        pieces_below cfg around ⟨parent, siblings, index⟩ node,
        piecesFrom_below cfg around parent siblings (index + 1) rest]

end

def withOmissions (cfg : Config) (omitting : Bool) : Config :=
  { cfg with omitOptionalTags := omitting }

private theorem isLeaf_withOmissions (omitting : Bool) (dialect : Dialect) :
    (cfg.withOmissions omitting).isLeaf dialect e = cfg.isLeaf dialect e := by
  cases dialect <;> rfl

private theorem pieceText_withOmissions (omitting : Bool) (piece : Piece) :
    (cfg.withOmissions omitting).pieceText piece = cfg.pieceText piece := by
  cases piece with
  | text parent content => cases parent <;> rfl
  | _ => rfl

mutual

private theorem slots_withOmissions (cfg : Config) (omitting : Bool) (around : List String)
    (place : Place) : (node : Node) →
      (cfg.withOmissions omitting).slots around place node = cfg.slots around place node
  | .root children => by
      rw [slots, slots, slotsFrom_withOmissions cfg omitting around none children 0 children]
  | .element ⟨tag, attrs, children⟩ => by
      rw [slots, slots, isLeaf_withOmissions,
        slotsFrom_withOmissions cfg omitting (tag :: around) (some tag) children 0 children]
  | .text _ | .comment _ | .doctype _ | .raw _ => by simp only [slots]

private theorem slotsFrom_withOmissions (cfg : Config) (omitting : Bool) (around : List String)
    (parent : Option String) (siblings : List Node) (index : Nat) : (nodes : List Node) →
      (cfg.withOmissions omitting).slotsFrom around parent siblings index nodes =
        cfg.slotsFrom around parent siblings index nodes
  | [] => by simp only [slotsFrom]
  | node :: rest => by
      rw [slotsFrom, slotsFrom,
        slots_withOmissions cfg omitting around ⟨parent, siblings, index⟩ node,
        slotsFrom_withOmissions cfg omitting around parent siblings (index + 1) rest]

end

/-- Two configurations that differ in the omission of tags only write the same slots, with the same
text in each, but for the implied tags that the one leaves out. -/
theorem pieces_omitOptionalTags (cfg : Config) (node : Node) :
    let keeping : Config := { cfg with omitOptionalTags := false }
    let omitting : Config := { cfg with omitOptionalTags := true }
    let slots := cfg.slots [] (.alone node) node
    keeping.pieces .html (.alone node) node = slots.map Slot.piece ∧
    omitting.pieces .html (.alone node) node = (slots.filter (!·.isImplied)).map Slot.piece ∧
    (∀ piece, omitting.pieceText piece = keeping.pieceText piece) ∧
    keeping.render node = keeping.piecesText (slots.map Slot.piece) ∧
    omitting.render node = omitting.piecesText ((slots.filter (!·.isImplied)).map Slot.piece) := by
  intro keeping omitting slots
  have kept : keeping.pieces .html (.alone node) node = slots.map Slot.piece := by
    have all : slots.filter (Slot.isWritten false) = slots :=
      List.filter_eq_self.2 fun _ _ => rfl
    rw [← all]
    exact (pieces_below keeping [] (.alone node) node).trans
      (congrArg _ (slots_withOmissions cfg false [] (.alone node) node))
  have left : omitting.pieces .html (.alone node) node =
      (slots.filter (!·.isImplied)).map Slot.piece :=
    (pieces_below omitting [] (.alone node) node).trans
      (congrArg _ (slots_withOmissions cfg true [] (.alone node) node))
  refine ⟨kept, left, ?_, ?_, ?_⟩
  · intro piece
    exact (pieceText_withOmissions cfg true piece).trans
      (pieceText_withOmissions cfg false piece).symm
  · rw [render_eq_markup, markup, kept]
  · rw [render_eq_markup, markup, left]

end Config

end HtmlPrinter
