import HtmlPrinter.Piece

/-!
# The markup of siblings

The markup of siblings is the markup of each behind the one in front, and the markup of an element
is its start tag, the markup of its children, and its end tag, where none of them is left out.
-/

namespace HtmlPrinter.Config

variable {cfg : Config} {dialect : Dialect}

def markupFrom (cfg : Config) (dialect : Dialect) (parent : Option String) (siblings : List Node)
    (index : Nat) (nodes : List Node) : String :=
  cfg.piecesText (cfg.piecesFrom dialect parent siblings index nodes)

theorem markupFrom_nil (parent : Option String) (siblings : List Node) (index : Nat) :
    cfg.markupFrom dialect parent siblings index [] = "" := rfl

theorem markupFrom_cons (parent : Option String) (siblings : List Node) (index : Nat) (node : Node)
    (rest : List Node) :
    cfg.markupFrom dialect parent siblings index (node :: rest) =
      cfg.markup dialect ⟨parent, siblings, index⟩ node ++
        cfg.markupFrom dialect parent siblings (index + 1) rest := by
  rw [markupFrom, piecesFrom, piecesText_append]
  rfl

theorem markupFrom_cons_append (parent : Option String) (siblings : List Node) (index : Nat)
    (node : Node) (rest : List Node) (x : List Char) :
    (cfg.markupFrom dialect parent siblings index (node :: rest)).toList ++ x =
      (cfg.markup dialect ⟨parent, siblings, index⟩ node).toList ++
        ((cfg.markupFrom dialect parent siblings (index + 1) rest).toList ++ x) := by
  rw [markupFrom_cons, String.toList_append, List.append_assoc]

theorem markupFrom_append (parent : Option String) (siblings : List Node) (index : Nat)
    (first second : List Node) :
    cfg.markupFrom dialect parent siblings index (first ++ second) =
      cfg.markupFrom dialect parent siblings index first ++
        cfg.markupFrom dialect parent siblings (index + first.length) second := by
  induction first generalizing index with
  | nil => simp [markupFrom_nil]
  | cons node rest ih =>
      rw [List.cons_append, markupFrom_cons, ih, markupFrom_cons, String.append_assoc,
        List.length_cons, Nat.add_assoc, Nat.add_comm 1]

theorem markup_root (place : Place) (children : List Node) :
    cfg.markup dialect place (.root children) =
      cfg.markupFrom dialect none children 0 children := rfl

def startText (cfg : Config) (dialect : Dialect) (e : Element) (place : Place) : String :=
  if cfg.omitsStartTag dialect e place then "" else cfg.startTag dialect e

def endText (cfg : Config) (dialect : Dialect) (e : Element) (place : Place) : String :=
  if cfg.omitsEndTag dialect e place then "" else endTag e.tag

theorem endTag_append (tag : String) (x : List Char) :
    (endTag tag).toList ++ x = '<' :: '/' :: (tag.toList ++ '>' :: x) := by
  simp [endTag]

/-- Gives what stands between the start tag of an element and its next sibling. -/
def contentText (cfg : Config) (dialect : Dialect) (e : Element) (place : Place) : String :=
  if cfg.isLeaf dialect e then ""
  else cfg.markupFrom dialect (some e.tag) e.children 0 e.children ++ cfg.endText dialect e place

theorem markup_element_eq (e : Element) (place : Place) :
    cfg.markup dialect place (.element e) = cfg.startText (dialect.enter e.tag) e place ++
      cfg.contentText (dialect.enter e.tag) e place := by
  obtain ⟨tag, attrs, children⟩ := e
  let e : Element := ⟨tag, attrs, children⟩
  have started : cfg.piecesText (cfg.startPieces (dialect.enter tag) e place) =
      cfg.startText (dialect.enter tag) e place := by
    unfold startPieces startText
    split <;> simp [piecesText, pieceText]
  have ended : cfg.piecesText (cfg.endPieces (dialect.enter tag) e place) =
      cfg.endText (dialect.enter tag) e place := by
    unfold endPieces endText
    split <;> simp [piecesText, pieceText]
  rw [markup, pieces, piecesText_append, started]
  by_cases hleaf : cfg.isLeaf (dialect.enter tag) e = true
  · rw [if_pos hleaf, contentText, if_pos hleaf]
    rfl
  · rw [if_neg hleaf, piecesText_append, ended, contentText, if_neg hleaf]
    rfl

private theorem markup_element {e : Element} {place : Place}
    (h : cfg.omitsStartTag (dialect.enter e.tag) e place = false) :
    cfg.markup dialect place (.element e) = cfg.startTag (dialect.enter e.tag) e ++
      cfg.contentText (dialect.enter e.tag) e place := by
  rw [markup_element_eq, startText, h]
  rfl

theorem markup_element_append {e : Element} {place : Place}
    (h : cfg.omitsStartTag (dialect.enter e.tag) e place = false) (x : List Char) :
    (cfg.markup dialect place (.element e)).toList ++ x =
      (cfg.startTag (dialect.enter e.tag) e).toList ++
        ((cfg.contentText (dialect.enter e.tag) e place).toList ++ x) := by
  rw [markup_element h, String.toList_append, List.append_assoc]

theorem contentText_append {e : Element} {place : Place} (h : ¬ cfg.isLeaf dialect e = true)
    (x : List Char) :
    (cfg.contentText dialect e place).toList ++ x =
      (cfg.markupFrom dialect (some e.tag) e.children 0 e.children).toList ++
        ((cfg.endText dialect e place).toList ++ x) := by
  rw [contentText, if_neg h, String.toList_append, List.append_assoc]

theorem isLeaf_congr {e e' : Element} (htag : e.tag = e'.tag)
    (hclosed : cfg.selfCloses dialect e = cfg.selfCloses dialect e') :
    cfg.isLeaf dialect e = cfg.isLeaf dialect e' := by
  cases dialect with
  | html => rw [isLeaf, isLeaf, htag]
  | svg => exact hclosed

/-- The markup of an element depends on its place only in the tags that are left out there, and on
its children only in their markup and in whether they close the start tag. -/
theorem markup_element_congr {tag : String} {attrs : Attributes} {children children' : List Node}
    {place place' : Place}
    (hclosed : cfg.selfCloses (dialect.enter tag) ⟨tag, attrs, children⟩ =
      cfg.selfCloses (dialect.enter tag) ⟨tag, attrs, children'⟩)
    (hstart : cfg.omitsStartTag (dialect.enter tag) ⟨tag, attrs, children⟩ place =
      cfg.omitsStartTag (dialect.enter tag) ⟨tag, attrs, children'⟩ place')
    (hend : cfg.omitsEndTag (dialect.enter tag) ⟨tag, attrs, children⟩ place =
      cfg.omitsEndTag (dialect.enter tag) ⟨tag, attrs, children'⟩ place')
    (hbelow : cfg.markupFrom (dialect.enter tag) (some tag) children 0 children =
      cfg.markupFrom (dialect.enter tag) (some tag) children' 0 children') :
    cfg.markup dialect place (.element ⟨tag, attrs, children⟩) =
      cfg.markup dialect place' (.element ⟨tag, attrs, children'⟩) := by
  have written : cfg.startTag (dialect.enter tag) ⟨tag, attrs, children⟩ =
      cfg.startTag (dialect.enter tag) ⟨tag, attrs, children'⟩ := by
    rw [startTag, hclosed]
    rfl
  have leaf : cfg.isLeaf (dialect.enter tag) ⟨tag, attrs, children⟩ =
      cfg.isLeaf (dialect.enter tag) ⟨tag, attrs, children'⟩ := isLeaf_congr rfl hclosed
  rw [markup_element_eq, markup_element_eq, startText, hstart, written, contentText, leaf, hbelow,
    endText, hend]
  rfl

/-- A start tag with no rule is left out nowhere, whatever the children. -/
theorem omitsStartTag_of_unruled (e : Element) (hrule : startRule? e.tag = none)
    (dialect : Dialect) (place : Place) : cfg.omitsStartTag dialect e place = false := by
  rw [omitsStartTag, Element.startTagImplied, hrule, Option.any_none, Bool.and_false]

theorem omitsStartTag_of_bare (homit : cfg.omitOptionalTags = true) (tag : String)
    (children : List Node) (place : Place) :
    cfg.omitsStartTag .html ⟨tag, ∅, children⟩ place =
      Element.startTagImplied ⟨tag, ∅, children⟩ place := by
  rw [omitsStartTag, omits, homit, isEmpty_layOut]
  rfl

/-- A tag without a rule of its own is never left out. -/
theorem markup_element_of_unruled {e : Element} {place : Place}
    (hstart : startRule? e.tag = none) (hend : endRule? e.tag = none)
    (hleaf : cfg.isLeaf (dialect.enter e.tag) e = false) :
    cfg.markup dialect place (.element e) = cfg.startTag (dialect.enter e.tag) e ++
      cfg.markupFrom (dialect.enter e.tag) (some e.tag) e.children 0 e.children ++
        endTag e.tag := by
  have started : cfg.omitsStartTag (dialect.enter e.tag) e place = false :=
    omitsStartTag_of_unruled e hstart (dialect.enter e.tag) place
  have ended : cfg.omitsEndTag (dialect.enter e.tag) e place = false := by
    simp [omitsEndTag, Element.endTagImplied, hend]
  rw [markup_element started, contentText, hleaf, endText, ended, String.append_assoc]
  rfl

theorem pieceText_text {parent : Option String}
    (hparent : ∀ tag ∈ parent, holdsRawText tag = false) (content : String) :
    cfg.pieceText (.text parent content) = (cfg.escaping .text).escaped content := by
  cases parent with
  | none => rfl
  | some tag =>
      have plain : holdsRawText tag = false := hparent tag rfl
      have script : sameName tag "script" = false := by
        simp only [holdsRawText, nameIn, List.any_cons, Bool.or_eq_false_iff] at plain
        exact plain.1
      simp [pieceText, guardsText, script, plain]

theorem markup_text {place : Place} (hparent : ∀ tag ∈ place.parent, holdsRawText tag = false)
    (content : String) :
    cfg.markup dialect place (.text content) = (cfg.escaping .text).escaped content := by
  rw [markup, pieces, piecesText, pieceText_text hparent, piecesText, String.append_empty]

/-- A raw node that is not trusted is written like text. -/
theorem markup_raw (h : cfg.allowDangerousHtml = false) (place : Place) (payload : String) :
    cfg.markup dialect place (.raw payload) = (cfg.escaping .text).escaped payload := by
  simp [markup, pieces, piecesText, pieceText, h]

theorem markup_comment (place : Place) (content : String) :
    cfg.markup dialect place (.comment content) = "<!--" ++ content ++ "-->" := by
  simp [markup, pieces, piecesText, pieceText]

theorem markup_doctype (place : Place) {name : String} (h : name.isEmpty = false) :
    cfg.markup dialect place (.doctype name) = "<!doctype " ++ name ++ ">" := by
  simp [markup, pieces, piecesText, pieceText, h]

end HtmlPrinter.Config
