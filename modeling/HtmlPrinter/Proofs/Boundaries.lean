import HtmlPrinter.Proofs.SiblingMarkup
import HtmlPrinter.Proofs.TagUnique

/-!
# What comes behind a left-out boundary

The end tag of some elements is left out in front of anything firm: a space or a comment behind it
would go into the element. The rule looks at the next sibling only, and the start tag of that
sibling may be left out too, so what comes behind the boundary is the first piece that is written
anywhere below it or behind it. `Config.leadsFirmly` asks about what no rule has looked at on the
way there: the first child of an element whose rule passes over it, and the next sibling of a node
that is not written. `startsFirm_behind_boundary_iff` says that this decides what comes first.
-/

namespace HtmlPrinter

def commentMark : List Char := ['<', '!', '-', '-']

/-- Decides whether a text may come behind a left-out tag: it starts neither with a space nor with
a comment. -/
def startsFirm (cs : List Char) : Bool := !cs.head?.any isSpace && !commentMark.isPrefixOf cs

/-- Decides whether a text ends before it is clear whether it starts with a comment. -/
def breaksOff (cs : List Char) : Bool := cs.isPrefixOf commentMark && cs != commentMark

/-- Decides whether a tag with a given name looks like a comment. -/
def looksLikeComment (tag : String) : Bool := ['!', '-', '-'].isPrefixOf tag.toList

/-- Decides whether a text may come behind a left-out tag where it stands for itself. -/
def isFirmText (verbatim : Bool) (content : String) : Bool :=
  (Node.text content).isFirm && !(verbatim && commentMark.isPrefixOf content.toList)

/-- Lists the elements whose end tag is left out in front of anything firm. -/
def boundaryElements : List String := ["html", "head", "body", "colgroup", "caption"]

private theorem startsFirm_cons_of_ne {c : Char} (hbracket : c ≠ '<') (x : List Char) :
    startsFirm (c :: x) = !isSpace c := by
  simp [startsFirm, commentMark, List.isPrefixOf, Ne.symm hbracket]

private theorem startsFirm_append {cs : List Char} (h : breaksOff cs = false) (x : List Char) :
    startsFirm (cs ++ x) = startsFirm cs := by
  have whole : cs <+: commentMark → cs = commentMark := by
    simpa [breaksOff, List.isPrefixOf_iff_prefix] using h
  have mark : commentMark <+: cs ++ x ↔ commentMark <+: cs := by
    constructor
    · intro hmark
      rcases List.prefix_or_prefix_of_prefix hmark (List.prefix_append cs x) with hcs | hcs
      · exact hcs
      · obtain rfl := whole hcs
        exact List.prefix_rfl
    · intro hmark
      exact hmark.trans (List.prefix_append cs x)
  have first : (cs ++ x).head? = cs.head? := by
    cases cs with
    | nil => exact absurd (whole List.nil_prefix) (by decide)
    | cons c cs => rfl
  have same : commentMark.isPrefixOf (cs ++ x) = commentMark.isPrefixOf cs := by
    rw [Bool.eq_iff_iff, List.isPrefixOf_iff_prefix, List.isPrefixOf_iff_prefix, mark]
  rw [startsFirm, startsFirm, first, same]

private theorem startsFirm_tag (tag : String) {c : Char} (hc : c ∈ [' ', '\n', '/', '>'])
    (x : List Char) : startsFirm ('<' :: (tag.toList ++ c :: x)) = !looksLikeComment tag := by
  have table : [' ', '\n', '/', '>'].all (fun d => d != '!' && d != '-') = true := by decide
  have apart := List.all_eq_true.1 table c hc
  rw [Bool.and_eq_true, bne_iff_ne, bne_iff_ne] at apart
  have bracket : isSpace '<' = false := by decide
  simp only [startsFirm, List.head?_cons, Option.any_some, bracket, commentMark, List.isPrefixOf,
    looksLikeComment]
  match tag.toList with
  | [] => simp [List.isPrefixOf, apart.1.symm]
  | [a] => simp [List.isPrefixOf, apart.2.symm]
  | [a, b] => simp [List.isPrefixOf, apart.2.symm]
  | a :: b :: d :: rest => simp [List.isPrefixOf]

private theorem startsFirm_endTag (tag : String) (x : List Char) :
    startsFirm ((endTag tag).toList ++ x) = true := by
  simp [endTag, startsFirm, isSpace, commentMark, List.isPrefixOf]

private theorem startsFirm_eq_isFirmText (content : String) :
    startsFirm content.toList = isFirmText true content := by
  simp [startsFirm, isFirmText, Node.isFirm, Node.isComment, Node.startsBlank]

namespace ScriptGuard

private theorem prefix_guardedList {p : List Char} (hp : '<' ∉ p) (cs : List Char) :
    p <+: guardedList cs ↔ p <+: cs := by
  induction cs generalizing p with
  | nil => rfl
  | cons c cs ih =>
      cases p with
      | nil => simp
      | cons d p =>
          rw [List.mem_cons, not_or] at hp
          by_cases hd : d = c
          · -- only behind a bracket is anything put
            subst hd
            have unopened : ¬ startsEndTag (d :: cs) = true := by
              simp [startsEndTag, Ne.symm hp.1]
            rw [guardedList, if_neg unopened, List.cons_prefix_cons, List.cons_prefix_cons,
              ih hp.2]
          · rw [guardedList]
            split <;> simp [List.cons_prefix_cons, hd]

private theorem startsFirm_guardedList (cs : List Char) :
    startsFirm (guardedList cs) = startsFirm cs := by
  cases cs with
  | nil => rfl
  | cons c cs =>
      have first : (guardedList (c :: cs)).head? = some c := by
        rw [guardedList]
        split <;> rfl
      have mark : commentMark <+: guardedList (c :: cs) ↔ commentMark <+: c :: cs := by
        by_cases hopens : startsEndTag (c :: cs) = true
        · -- a slash stands behind the bracket, and a backslash once it is guarded
          constructor
          · rw [guardedList, if_pos hopens]
            rintro ⟨rest, hrest⟩
            simp [commentMark] at hrest
          · rintro ⟨rest, hrest⟩
            rw [← hrest] at hopens
            simp [commentMark, startsEndTag] at hopens
        · have name : '<' ∉ ['!', '-', '-'] := by decide
          rw [guardedList, if_neg hopens, commentMark, List.cons_prefix_cons,
            List.cons_prefix_cons, prefix_guardedList name]
      have same : commentMark.isPrefixOf (guardedList (c :: cs)) =
          commentMark.isPrefixOf (c :: cs) := by
        rw [Bool.eq_iff_iff, List.isPrefixOf_iff_prefix, List.isPrefixOf_iff_prefix, mark]
      rw [startsFirm, startsFirm, first, same, List.head?_cons]

end ScriptGuard

private theorem endRule?_of_boundaryElements {tag : String}
    (h : nameIn tag boundaryElements = true) : endRule? tag = some .boundary := by
  have table : ∀ name ∈ boundaryElements, endRule? name = some .boundary := by decide
  obtain ⟨name, hname, hsame⟩ := List.any_eq_true.1 h
  rw [endRule?_congr hsame, table name hname]

/-- Decides whether a rule does not look at the first child, or not at one of spaces only. -/
def StartRule.passesOver : StartRule → Bool
  | document | metadata => true
  | content => false
  | tablePart _ skipBlank _ => skipBlank

/-- Decides whether the start tag of an element may be left out in front of any first child. -/
def passesOver (tag : String) : Bool := (startRule? tag).any StartRule.passesOver

theorem Element.firm_of_startTagImplied {e : Element} {place : Place}
    (h : e.startTagImplied place = true) (hlooks : passesOver e.tag = false) :
    e.children.head?.all Node.isFirm = true := by
  rw [startTagImplied] at h
  rw [passesOver] at hlooks
  cases hrule : startRule? e.tag with
  | none => simp [hrule] at h
  | some rule =>
      rw [hrule, Option.any_some] at h hlooks
      cases rule with
      | document => cases hlooks
      | metadata => cases hlooks
      | content =>
          rw [StartRule.holds, firstChild?] at h
          cases hfirst : e.children.head? with
          | none => rfl
          | some first =>
              rw [hfirst, Option.all_some, Bool.and_eq_true] at h
              exact h.1
      | tablePart child skipBlank after =>
          obtain rfl : skipBlank = false := hlooks
          rw [StartRule.holds, Bool.and_eq_true, firstChild?] at h
          cases hfirst : e.children.head? with
          | none => rfl
          | some first =>
              cases first with
              | element e => rfl
              | _ => simp [hfirst, Node.isElementNamed] at h

namespace Config

/-- Decides whether a piece may come behind a left-out tag. -/
def isFirmPiece (cfg : Config) : Piece → Bool
  | .startTag _ e => !looksLikeComment e.tag
  | .text parent content => isFirmText (parent.any holdsRawText) content
  | .raw markup => isFirmText cfg.allowDangerousHtml markup
  | .comment _ => false
  | .endTag _ | .doctype _ => true

/-- Gives the first piece that is written at all. -/
def firstPiece? (cfg : Config) (ps : List Piece) : Option Piece :=
  ps.find? fun piece => cfg.pieceText piece != ""

/-- Decides whether the first piece that is written is long enough to tell whether it is a
comment. Only text that stands for itself can break off inside the mark of one. -/
def startsClearly (cfg : Config) (ps : List Piece) : Bool :=
  (cfg.firstPiece? ps).all fun piece => !breaksOff (cfg.pieceText piece).toList

def firmlyLed (cfg : Config) (ps : List Piece) : Bool := (cfg.firstPiece? ps).all cfg.isFirmPiece

variable {cfg : Config}

private theorem startsFirm_startTag (dialect : Dialect) (e : Element) (x : List Char) :
    startsFirm ((cfg.startTag dialect e).toList ++ x) = !looksLikeComment e.tag := by
  obtain ⟨stacked, htext⟩ := cfg.startTag_toList_tagRest dialect e
  obtain ⟨c, rest, hrest, hc⟩ := @tagRest_starts cfg stacked (cfg.selfCloses dialect e)
    (cfg.attributeTexts dialect e) x
  rw [htext, List.cons_append, List.append_assoc, hrest]
  exact startsFirm_tag e.tag hc rest

private theorem startsFirm_escaped {content : String}
    (hne : (cfg.escaping .text).escaped content ≠ "") (x : List Char) :
    startsFirm (((cfg.escaping .text).escaped content).toList ++ x) =
      isFirmText false content := by
  cases hchars : content.toList with
  | nil =>
      exact absurd (Escaping.escaped_eq_empty_iff.2 (String.toList_eq_nil_iff.1 hchars)) hne
  | cons c cs =>
      have firm : isFirmText false content = !isSpace c := by
        simp [isFirmText, Node.isFirm, Node.isComment, Node.startsBlank, hchars]
      rw [firm, Escaping.escaped, hchars, Escaping.escapedList, Escaping.escapedChar]
      by_cases hescapes : (cfg.escaping .text).escapes c = true
      · have solid : isSpace c = false := by
          have table : (Context.required .text ++ Context.erroneous .text ++
              Context.dangerous .text).all (!isSpace ·) = true := by
            decide
          simp only [List.all_eq_true, Bool.not_eq_true'] at table
          apply table
          rcases Context.mem_forbidden.1 (escapes_escaping_iff.1 hescapes) with
            hc | ⟨-, hc⟩ | ⟨-, hc⟩
          · exact List.mem_append_left _ (List.mem_append_left _ hc)
          · exact List.mem_append_left _ (List.mem_append_right _ hc)
          · exact List.mem_append_right _ hc
        rw [if_pos hescapes, solid]
        simp only [Entities.reference, String.toList_append, List.append_assoc]
        exact startsFirm_cons_of_ne (by decide) _
      · have bracket : c ≠ '<' := by
          rintro rfl
          have forbidden : '<' ∈ cfg.forbidden .text := Context.mem_forbidden.2 (.inl (by decide))
          simp [Escaping.escapes, escaping, forbidden] at hescapes
        rw [if_neg hescapes]
        simp only [String.toList_append, String.toList_ofList, List.append_assoc]
        exact startsFirm_cons_of_ne bracket _

private theorem startsFirm_verbatim {tag content : String} (hraw : holdsRawText tag = true)
    (hclear : breaksOff (cfg.pieceText (.text (some tag) content)).toList = false)
    (x : List Char) :
    startsFirm ((cfg.pieceText (.text (some tag) content)).toList ++ x) =
      isFirmText true content := by
  rw [startsFirm_append hclear, ← startsFirm_eq_isFirmText]
  by_cases hguards : cfg.guardsText tag = true
  · rw [pieceText, if_pos hguards, ScriptGuard.guarded, String.toList_ofList,
      ScriptGuard.startsFirm_guardedList]
  · rw [pieceText, if_neg hguards, if_pos hraw]

private theorem startsFirm_pieceText (piece : Piece)
    (hclear : breaksOff (cfg.pieceText piece).toList = false) (x : List Char) :
    startsFirm ((cfg.pieceText piece).toList ++ x) = cfg.isFirmPiece piece := by
  have nonempty : cfg.pieceText piece ≠ "" := by
    intro hempty
    rw [hempty] at hclear
    exact absurd hclear (by decide)
  cases piece with
  | startTag dialect e => exact startsFirm_startTag dialect e x
  | endTag tag => exact startsFirm_endTag tag x
  | comment content =>
      simp [pieceText, startsFirm, isFirmPiece, commentMark, List.isPrefixOf]
  | doctype name =>
      simp [pieceText, startsFirm, isFirmPiece, commentMark, List.isPrefixOf, isSpace]
  | raw markup =>
      rw [isFirmPiece]
      cases htrusted : cfg.allowDangerousHtml with
      | true =>
          have text : cfg.pieceText (.raw markup) = markup := by simp [pieceText, htrusted]
          rw [text] at hclear ⊢
          rw [startsFirm_append hclear, startsFirm_eq_isFirmText]
      | false =>
          have text : cfg.pieceText (.raw markup) = (cfg.escaping .text).escaped markup := by
            simp [pieceText, htrusted]
          rw [text] at nonempty ⊢
          exact startsFirm_escaped nonempty x
  | text parent content =>
      rw [isFirmPiece]
      by_cases hraw : parent.any holdsRawText = true
      · obtain ⟨tag, rfl, htag⟩ := (Option.any_eq_true _ _).1 hraw
        rw [hraw]
        exact startsFirm_verbatim htag hclear x
      · have plain : ∀ tag ∈ parent, holdsRawText tag = false := by
          intro tag htag
          rw [Bool.eq_false_iff]
          exact fun h => hraw ((Option.any_eq_true _ _).2 ⟨tag, htag, h⟩)
        rw [pieceText_text plain] at nonempty ⊢
        rw [Bool.not_eq_true] at hraw
        rw [hraw]
        exact startsFirm_escaped nonempty x

private theorem eq_empty_of_pieceText {parent : Option String} {content : String}
    (h : cfg.pieceText (.text parent content) = "") : content = "" := by
  cases parent with
  | none => exact Escaping.escaped_eq_empty_iff.1 h
  | some tag =>
      rw [pieceText] at h
      split at h
      · cases hchars : content.toList with
        | nil => exact String.toList_eq_nil_iff.1 hchars
        | cons c cs =>
            rw [ScriptGuard.guarded, hchars, ScriptGuard.guardedList] at h
            split at h <;> simp at h
      · split at h
        · exact h
        · exact Escaping.escaped_eq_empty_iff.1 h

private theorem isFirmPiece_of_empty {piece : Piece} (h : cfg.pieceText piece = "") :
    cfg.isFirmPiece piece = true := by
  cases piece with
  | startTag dialect e => simp [pieceText, startTag] at h
  | comment content => simp [pieceText] at h
  | endTag tag => rfl
  | doctype name => rfl
  | raw markup =>
      have empty : markup = "" := by
        rw [pieceText] at h
        split at h
        · exact h
        · exact Escaping.escaped_eq_empty_iff.1 h
      rw [isFirmPiece, empty]
      cases cfg.allowDangerousHtml <;> rfl
  | text parent content =>
      rw [isFirmPiece, eq_empty_of_pieceText h]
      cases parent.any holdsRawText <;> rfl

section

variable {piece : Piece} {ps first second : List Piece}

private theorem firstPiece?_cons (h : cfg.pieceText piece ≠ "") :
    cfg.firstPiece? (piece :: ps) = some piece :=
  List.find?_cons_of_pos (bne_iff_ne.2 h)

private theorem firstPiece?_cons_of_empty (h : cfg.pieceText piece = "") :
    cfg.firstPiece? (piece :: ps) = cfg.firstPiece? ps :=
  List.find?_cons_of_neg (by simp [h])

private theorem firstPiece?_eq_none_iff : cfg.firstPiece? ps = none ↔ cfg.piecesText ps = "" := by
  induction ps with
  | nil => simp [firstPiece?, piecesText]
  | cons piece ps ih =>
      rw [piecesText, String.append_eq_empty_iff]
      by_cases hpiece : cfg.pieceText piece = ""
      · rw [firstPiece?_cons_of_empty hpiece, ih]
        simp [hpiece]
      · rw [firstPiece?_cons hpiece]
        simp [hpiece]

/-- How pieces start is decided by the first one that is written. -/
theorem startsFirm_piecesText (hclear : cfg.startsClearly ps = true) :
    startsFirm (cfg.piecesText ps).toList = cfg.firmlyLed ps := by
  induction ps with
  | nil => rfl
  | cons piece ps ih =>
      rw [startsClearly] at hclear
      by_cases hpiece : cfg.pieceText piece = ""
      · rw [firstPiece?_cons_of_empty hpiece] at hclear
        rw [piecesText, hpiece, String.empty_append, ih hclear, firmlyLed, firmlyLed,
          firstPiece?_cons_of_empty hpiece]
      · rw [firstPiece?_cons hpiece, Option.all_some, Bool.not_eq_true'] at hclear
        rw [piecesText, String.toList_append, startsFirm_pieceText piece hclear, firmlyLed,
          firstPiece?_cons hpiece, Option.all_some]

private theorem firmlyLed_cons (h : cfg.pieceText piece ≠ "") :
    cfg.firmlyLed (piece :: ps) = cfg.isFirmPiece piece := by
  rw [firmlyLed, firstPiece?_cons h, Option.all_some]

private theorem firmlyLed_of_empty (h : cfg.piecesText ps = "") : cfg.firmlyLed ps = true := by
  rw [firmlyLed, firstPiece?_eq_none_iff.2 h, Option.all_none]

private theorem firmlyLed_singleton (piece : Piece) :
    cfg.firmlyLed [piece] = cfg.isFirmPiece piece := by
  by_cases h : cfg.pieceText piece = ""
  · rw [isFirmPiece_of_empty h, firmlyLed_of_empty]
    rw [piecesText, h, piecesText, String.append_empty]
  · exact firmlyLed_cons h

private theorem firmlyLed_append : cfg.firmlyLed (first ++ second) =
    if cfg.piecesText first = "" then cfg.firmlyLed second else cfg.firmlyLed first := by
  have parts : cfg.firstPiece? (first ++ second) =
      (cfg.firstPiece? first).or (cfg.firstPiece? second) :=
    List.find?_append
  rw [firmlyLed, parts]
  split
  · next hempty =>
      rw [firstPiece?_eq_none_iff.2 hempty, Option.none_or, firmlyLed]
  · next hwritten =>
      obtain ⟨piece, hpiece⟩ := Option.ne_none_iff_exists'.1 fun hnone =>
        hwritten (firstPiece?_eq_none_iff.1 hnone)
      rw [firmlyLed, hpiece, Option.some_or]

private theorem firmlyLed_endPieces (dialect : Dialect) (e : Element) (place : Place) :
    cfg.firmlyLed (ps ++ cfg.endPieces dialect e place) = cfg.firmlyLed ps := by
  have ends : cfg.firmlyLed (cfg.endPieces dialect e place) = true := by
    rw [endPieces]
    split
    · rfl
    · exact firmlyLed_cons (by simp [pieceText, endTag])
  rw [firmlyLed_append]
  split
  · next hempty => rw [ends, firmlyLed_of_empty hempty]
  · rfl

end

mutual

/-- Decides whether nothing that no rule looks at comes first in a node: the first child where the
rule for the start tag passes over it, and a name or a text that looks like a comment. -/
def leadsFirmly (cfg : Config) (dialect : Dialect) (place : Place) : Node → Bool
  | .element ⟨tag, attrs, children⟩ =>
      let e : Element := ⟨tag, attrs, children⟩
      let inner := dialect.enter tag
      if cfg.omitsStartTag inner e place then
        cfg.isLeaf inner e ||
          (!passesOver tag || children.head?.all Node.isFirm) &&
            leadsFirmlyFrom cfg inner (some tag) children 0 children
      else !looksLikeComment tag
  | .root children =>
      children.head?.all Node.isFirm && leadsFirmlyFrom cfg dialect none children 0 children
  | .text content =>
      !(place.parent.any holdsRawText && commentMark.isPrefixOf content.toList)
  | .raw markup => isFirmText cfg.allowDangerousHtml markup
  | .comment _ | .doctype _ => true

/-- Decides the same for siblings. One that is not written leaves it to the next one, which no rule
has looked at. -/
def leadsFirmlyFrom (cfg : Config) (dialect : Dialect) (parent : Option String)
    (siblings : List Node) (index : Nat) : List Node → Bool
  | [] => true
  | node :: rest =>
      leadsFirmly cfg dialect ⟨parent, siblings, index⟩ node &&
        (cfg.markup dialect ⟨parent, siblings, index⟩ node != "" ||
          rest.head?.all Node.isFirm &&
            leadsFirmlyFrom cfg dialect parent siblings (index + 1) rest)

end

mutual

theorem firmlyLed_pieces (cfg : Config) (dialect : Dialect) (place : Place) :
    (node : Node) → cfg.firmlyLed (cfg.pieces dialect place node) =
      (node.isFirm && cfg.leadsFirmly dialect place node)
  | .element ⟨tag, attrs, children⟩ => by
      let e : Element := ⟨tag, attrs, children⟩
      have firm : (Node.element e).isFirm = true := rfl
      rw [pieces, leadsFirmly, startPieces, firm, Bool.true_and]
      by_cases homitted : cfg.omitsStartTag (dialect.enter tag) e place = true
      · rw [if_pos homitted, if_pos homitted, List.nil_append]
        by_cases hleaf : cfg.isLeaf (dialect.enter tag) e = true
        · rw [if_pos hleaf, hleaf]
          rfl
        · rw [if_neg hleaf, firmlyLed_endPieces,
            firmlyLed_piecesFrom cfg (dialect.enter tag) (some tag) children 0 children,
            Bool.eq_false_iff.2 hleaf, Bool.false_or]
          cases hover : passesOver tag with
          | true => rfl
          | false =>
              rw [omitsStartTag, Bool.and_eq_true] at homitted
              have first : children.head?.all Node.isFirm = true :=
                Element.firm_of_startTagImplied homitted.2 hover
              rw [first]
              rfl
      · rw [if_neg homitted, if_neg homitted]
        exact firmlyLed_cons (by simp [pieceText, startTag])
  | .root children => by
      rw [pieces, leadsFirmly]
      exact firmlyLed_piecesFrom cfg dialect none children 0 children
  | .text content => firmlyLed_singleton (.text place.parent content)
  | .raw markup => firmlyLed_singleton (.raw markup)
  | .comment content => firmlyLed_singleton (.comment content)
  | .doctype name => firmlyLed_singleton (.doctype name)

private theorem firmlyLed_piecesFrom (cfg : Config) (dialect : Dialect) (parent : Option String)
    (siblings : List Node) (index : Nat) : (nodes : List Node) →
      cfg.firmlyLed (cfg.piecesFrom dialect parent siblings index nodes) =
        (nodes.head?.all Node.isFirm && cfg.leadsFirmlyFrom dialect parent siblings index nodes)
  | [] => rfl
  | node :: rest => by
      have first := firmlyLed_pieces cfg dialect ⟨parent, siblings, index⟩ node
      have behind := firmlyLed_piecesFrom cfg dialect parent siblings (index + 1) rest
      rw [piecesFrom, leadsFirmlyFrom, firmlyLed_append, List.head?_cons, Option.all_some]
      by_cases hempty : cfg.piecesText (cfg.pieces dialect ⟨parent, siblings, index⟩ node) = ""
      · have unwritten : cfg.markup dialect ⟨parent, siblings, index⟩ node = "" := hempty
        rw [firmlyLed_of_empty hempty] at first
        rw [if_pos hempty, behind, ← Bool.and_assoc, ← first, unwritten, bne_self_eq_false,
          Bool.false_or, Bool.true_and]
      · have written : (cfg.markup dialect ⟨parent, siblings, index⟩ node != "") = true :=
          bne_iff_ne.2 hempty
        rw [if_neg hempty, first, written, Bool.true_or, Bool.and_true]

end

private theorem firm_of_omitsEndTag {e : Element} {place : Place}
    (hrule : endRule? e.tag = some .boundary) (homitted : cfg.omitsEndTag .html e place = true) :
    place.following.head?.all Node.isFirm = true := by
  rw [omitsEndTag, Bool.and_eq_true, Element.endTagImplied, hrule] at homitted
  exact homitted.2

/-- What is written behind a boundary without an end tag starts with a space or with a comment
exactly if something that no rule has looked at does, unless text that stands for itself breaks off
before that is clear. -/
theorem startsFirm_behind_boundary_iff {place : Place} {e : Element}
    (hclear : cfg.startsClearly (cfg.piecesFrom .html place.parent place.siblings
      (place.index + 1) place.following) = true)
    (hboundary : nameIn e.tag boundaryElements = true)
    (homitted : cfg.omitsEndTag .html e place = true) :
    startsFirm (cfg.markupFrom .html place.parent place.siblings (place.index + 1)
      place.following).toList = true ↔
    cfg.leadsFirmlyFrom .html place.parent place.siblings (place.index + 1)
      place.following = true := by
  have firm := firm_of_omitsEndTag (endRule?_of_boundaryElements hboundary) homitted
  rw [markupFrom, startsFirm_piecesText hclear, firmlyLed_piecesFrom, firm, Bool.true_and]

theorem startsFirm_behind_boundary_iff_caption :
    let cfg : Config := { omitOptionalTags := true }
    let caption : Element := ⟨"caption", ∅, [.text "T"]⟩
    let row : Node := .element ⟨"tr", ∅, [.element ⟨"td", ∅, [.text "1"]⟩]⟩
    let place (children : List Node) : Place :=
      ⟨some "table", [.element caption, .element ⟨"tbody", ∅, children⟩], 0⟩
    let behind (children : List Node) : List Char :=
      (cfg.markupFrom .html (place children).parent (place children).siblings 1
        (place children).following).toList
    (∀ children, cfg.omitsEndTag .html caption (place children) = true) ∧
      startsFirm (behind [row]) = true ∧ ¬ startsFirm (behind [.text "\n", row]) = true := by
  intro cfg caption row place behind
  have rule : endRule? caption.tag = some .boundary := by decide
  have omitted : ∀ children, cfg.omitsEndTag .html caption (place children) = true := by
    intro children
    rw [omitsEndTag, Element.endTagImplied, rule]
    rfl
  refine ⟨omitted, ?_, ?_⟩
  · rw [startsFirm_behind_boundary_iff (by decide +kernel) (by decide) (omitted [row])]
    decide +kernel
  · rw [startsFirm_behind_boundary_iff (by decide +kernel) (by decide) (omitted [.text "\n", row])]
    decide +kernel

/-- A part of a table without a start tag that starts with a space lets the space into the
caption. -/
example :
    let cfg : Config := { omitOptionalTags := true }
    let row : Node := .element ⟨"tr", ∅, [.element ⟨"td", ∅, [.text "1"]⟩]⟩
    cfg.markup .html .detached (.element ⟨"table", ∅,
        [.element ⟨"caption", ∅, [.text "T"]⟩, .element ⟨"tbody", ∅, [.text "\n", row]⟩]⟩) =
      "<table><caption>T\n<tr><td>1</table>" := by
  decide +kernel

end Config

end HtmlPrinter
