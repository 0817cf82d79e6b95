import HtmlPrinter.Proofs.DocumentOrder
import HtmlPrinter.Proofs.SiblingMarkup
import HtmlPrinter.Proofs.TagUnique

/-!
# The text that is seen

Without its tags, and with its references read, markup is the text of the tree it was printed from.
`eraseTags` takes the tags out of a text. In a tree of elements and text alone, no written text
holds a `<` and no tag holds a `>`, so what is left is the escaped text of the whole tree, whichever
tags are left out or closed with a slash; `decode_eraseTags_render` says that it reads as the text.
-/

namespace HtmlPrinter

/-- Takes out each span from a `<` to the next `>`; a `<` that nothing closes stays. -/
def eraseTags (cs : List Char) : List Char :=
  match cs with
  | [] => []
  | c :: rest =>
      if c = '<' ∧ '>' ∈ rest then eraseTags (rest.dropWhile (· != '>')).tail
      else c :: eraseTags rest
termination_by cs.length
decreasing_by
  · have shorter : (rest.dropWhile (· != '>')).tail.length ≤ rest.length := by
      rw [List.length_tail]
      exact Nat.le_trans (Nat.sub_le _ _) (List.dropWhile_sublist _).length_le
    simp only [List.length_cons]
    omega
  · simp

theorem eraseTags_append {cs : List Char} (h : '<' ∉ cs) (rest : List Char) :
    eraseTags (cs ++ rest) = cs ++ eraseTags rest := by
  induction cs with
  | nil => rfl
  | cons c cs ih =>
      rw [List.mem_cons, not_or] at h
      have plain : ¬ (c = '<' ∧ '>' ∈ cs ++ rest) := fun hopen => h.1 hopen.1.symm
      rw [List.cons_append, eraseTags, if_neg plain, ih h.2, List.cons_append]

private theorem eraseTags_span {cs : List Char} (h : '>' ∉ cs) (rest : List Char) :
    eraseTags ('<' :: (cs ++ '>' :: rest)) = eraseTags rest := by
  have closed : '<' = '<' ∧ '>' ∈ cs ++ '>' :: rest := by simp
  have stops : ∀ c ∈ cs, (c != '>') = true := by
    intro c hc
    rw [bne_iff_ne]
    exact fun hclose => h (hclose ▸ hc)
  rw [eraseTags, if_pos closed, List.dropWhile_append_of_pos stops]
  simp

private theorem close_not_mem_of_isTagName {tag : String} (htag : isTagName tag = true) :
    '>' ∉ tag.toList := by
  intro hmem
  have close := isTagChar_of_mem htag hmem
  revert close
  decide

namespace Node

mutual

/-- Decides whether a tree is made of roots, text and bare elements only: with a proper name,
without attributes, without raw text, and without children that would be dropped. -/
def isBare (cfg : Config) (dialect : Dialect) : Node → Bool
  | .root children => isBareList cfg dialect children
  | .element ⟨tag, attrs, children⟩ =>
      isTagName tag && !holdsRawText tag && attrs.isEmpty &&
        (dialect.enter tag == .svg || !cfg.isVoid tag || children.isEmpty) &&
        isBareList cfg (dialect.enter tag) children
  | .text _ => true
  | .comment _ | .doctype _ | .raw _ => false

def isBareList (cfg : Config) (dialect : Dialect) : List Node → Bool
  | [] => true
  | node :: rest => isBare cfg dialect node && isBareList cfg dialect rest

end

end Node

variable {cfg : Config} {dialect : Dialect}

private theorem Element.isBare_iff {e : Element} : (Node.element e).isBare cfg dialect = true ↔
    isTagName e.tag = true ∧ holdsRawText e.tag = false ∧ e.attrs.isEmpty = true ∧
      (dialect.enter e.tag = .svg ∨ cfg.isVoid e.tag = false ∨ e.children = []) ∧
      Node.isBareList cfg (dialect.enter e.tag) e.children = true := by
  obtain ⟨tag, attrs, children⟩ := e
  simp only [Node.isBare, Bool.and_eq_true, Bool.or_eq_true, Bool.not_eq_true', beq_iff_eq,
    List.isEmpty_iff, and_assoc, or_assoc]

private theorem Element.children_of_isBare {e : Element}
    (h : (Node.element e).isBare cfg dialect = true)
    (hleaf : cfg.isLeaf (dialect.enter e.tag) e = true) : e.children = [] := by
  obtain ⟨-, -, -, hvoid, -⟩ := isBare_iff.1 h
  cases hinner : dialect.enter e.tag with
  | html =>
      rw [hinner, Config.isLeaf] at hleaf
      simpa [hinner, hleaf] using hvoid
  | svg =>
      rw [hinner, Config.isLeaf, Config.selfCloses, Bool.and_eq_true, List.isEmpty_iff] at hleaf
      exact hleaf.1

namespace Config

private theorem eraseTags_startTag {e : Element} (htag : isTagName e.tag = true)
    (hattrs : e.attrs.isEmpty = true) (x : List Char) :
    eraseTags ((cfg.startTag dialect e).toList ++ x) = eraseTags x := by
  have bare : cfg.attributeTexts dialect e = [] := by
    rw [OrderedMap.isEmpty, List.isEmpty_iff] at hattrs
    rw [attributeTexts, hattrs, List.filterMap_nil]
  let slash := (if cfg.selfCloses dialect e then cfg.slash none else "").toList
  have slashed : '>' ∉ slash := by
    have table : '>' ∉ "/".toList ∧ '>' ∉ " /".toList ∧ '>' ∉ "".toList := by decide
    simp only [slash, Config.slash]
    split
    · split
      · exact table.1
      · exact table.2.1
    · exact table.2.2
  have span : (cfg.startTag dialect e).toList ++ x =
      '<' :: ((e.tag.toList ++ slash) ++ '>' :: x) := by
    simp [startTag, bare, layOut, spaceOut, slash]
  rw [span]
  refine eraseTags_span ?_ x
  rw [List.mem_append, not_or]
  exact ⟨close_not_mem_of_isTagName htag, slashed⟩

private theorem eraseTags_startText {e : Element} (htag : isTagName e.tag = true)
    (hattrs : e.attrs.isEmpty = true) (place : Place) (x : List Char) :
    eraseTags ((cfg.startText dialect e place).toList ++ x) = eraseTags x := by
  unfold startText
  split
  · rfl
  · exact eraseTags_startTag htag hattrs x

private theorem eraseTags_endText {e : Element} (htag : isTagName e.tag = true) (place : Place)
    (x : List Char) : eraseTags ((cfg.endText dialect e place).toList ++ x) = eraseTags x := by
  unfold endText
  split
  · rfl
  · rw [endTag_append, ← List.cons_append]
    refine eraseTags_span ?_ x
    rw [List.mem_cons, not_or]
    exact ⟨by decide, close_not_mem_of_isTagName htag⟩

private theorem open_not_mem_escaped (hent : cfg.entities = ∅) (content : String) :
    '<' ∉ ((cfg.escaping .text).escaped content).toList :=
  not_mem_escaped_of_required hent (by decide) (by decide) content

/-- Says that the markup of bare siblings, without its tags, is their escaped text. -/
def ShowsText (cfg : Config) (nodes : List Node) : Prop :=
  ∀ {dialect parent siblings index}, Node.isBareList cfg dialect nodes = true →
    (∀ tag ∈ parent, holdsRawText tag = false) → ∀ x,
      eraseTags ((cfg.markupFrom dialect parent siblings index nodes).toList ++ x) =
        ((cfg.escaping .text).escaped (Node.textContentList nodes)).toList ++ eraseTags x

private theorem eraseTags_element {e : Element} {place : Place}
    (hchildren : cfg.ShowsText e.children) (hbare : (Node.element e).isBare cfg dialect = true)
    (x : List Char) :
    eraseTags ((cfg.markup dialect place (.element e)).toList ++ x) =
      ((cfg.escaping .text).escaped (Node.element e).textContent).toList ++ eraseTags x := by
  obtain ⟨htag, hraw, hattrs, -, hbelow⟩ := Element.isBare_iff.1 hbare
  rw [markup_element_eq, String.toList_append, List.append_assoc,
    eraseTags_startText htag hattrs place, Node.textContent_element]
  by_cases hleaf : cfg.isLeaf (dialect.enter e.tag) e = true
  · rw [contentText, if_pos hleaf, Element.children_of_isBare hbare hleaf]
    simp [Node.textContentList, Escaping.escaped, Escaping.escapedList]
  · have parent : ∀ tag ∈ some e.tag, holdsRawText tag = false := by
      rintro tag ⟨⟩
      exact hraw
    rw [contentText_append hleaf, hchildren hbelow parent, eraseTags_endText htag]

theorem eraseTags_markup (hent : cfg.entities = ∅) {place : Place} {node : Node}
    (hchildren : cfg.ShowsText node.children) (hbare : node.isBare cfg dialect = true)
    (hparent : ∀ tag ∈ place.parent, holdsRawText tag = false) (x : List Char) :
    eraseTags ((cfg.markup dialect place node).toList ++ x) =
      ((cfg.escaping .text).escaped node.textContent).toList ++ eraseTags x := by
  cases node with
  | root children => exact hchildren hbare (by simp) x
  | element e => exact eraseTags_element hchildren hbare x
  | text content =>
      rw [markup_text hparent, eraseTags_append (open_not_mem_escaped hent content)]
      rfl
  | comment content => cases hbare
  | doctype name => cases hbare
  | raw markup => cases hbare

private theorem showsText_nil : cfg.ShowsText [] := by
  intro dialect parent siblings index _ _ x
  simp [markupFrom_nil, Node.textContentList, Escaping.escaped, Escaping.escapedList]

private theorem showsText_cons (hent : cfg.entities = ∅) {node : Node} {nodes : List Node}
    (hchildren : cfg.ShowsText node.children) (hrest : cfg.ShowsText nodes) :
    cfg.ShowsText (node :: nodes) := by
  intro dialect parent siblings index hbare hparent x
  rw [Node.isBareList, Bool.and_eq_true] at hbare
  rw [markupFrom_cons_append, eraseTags_markup hent hchildren hbare.1 hparent,
    hrest hbare.2 hparent, Node.textContentList, Escaping.escaped_append, String.toList_append,
    List.append_assoc]

mutual

private theorem showsText_children (hent : cfg.entities = ∅) :
    ∀ node : Node, cfg.ShowsText node.children
  | .element ⟨_, _, children⟩ => showsText hent children
  | .root children => showsText hent children
  | .text _ => showsText_nil
  | .comment _ => showsText_nil
  | .doctype _ => showsText_nil
  | .raw _ => showsText_nil

private theorem showsText (hent : cfg.entities = ∅) : ∀ nodes : List Node, cfg.ShowsText nodes
  | [] => showsText_nil
  | node :: nodes => showsText_cons hent (showsText_children hent node) (showsText hent nodes)

end

/-- The text of a tree survives printing: without its tags, and with its references read, the markup
of a bare tree is the text of the tree. -/
theorem decode_eraseTags_render (hent : cfg.entities = ∅) {node : Node}
    (hbare : node.isBare cfg .html = true) :
    Entities.decode ∅ (eraseTags (cfg.render node).toList) = node.textContent.toList := by
  have shown : ∀ x, eraseTags ((cfg.markup .html (.alone node) node).toList ++ x) =
      ((cfg.escaping .text).escaped node.textContent).toList ++ eraseTags x :=
    eraseTags_markup hent (showsText_children hent node) hbare (by simp [Place.alone])
  have erased := shown []
  rw [List.append_nil, ← render_eq_markup, eraseTags, List.append_nil] at erased
  rw [erased, decode_escaped hent]

theorem decode_eraseTags_render_list :
    let cfg : Config :=
      { omitOptionalTags := true, closeSelfClosing := true, closeEmptyElements := true }
    let first : Node := .element ⟨"li", ∅, [.text "a > b", .element ⟨"br", ∅, []⟩]⟩
    let second : Node := .element ⟨"li", ∅,
      [.text "&lt;<é", .element ⟨"svg", ∅, [.element ⟨"g", ∅, []⟩, .text "c"]⟩]⟩
    let node : Node := .root [.element ⟨"ul", ∅, [first, .text "\n", second]⟩]
    cfg.render node = "<ul><li>a > b<br />\n<li>&amp;lt;&#x3C;é<svg><g />c</svg></ul>" ∧
      Entities.decode ∅ (eraseTags (cfg.render node).toList) = "a > b\n&lt;<éc".toList := by
  intro cfg first second node
  have bare : node.isBare cfg .html = true := by decide
  have text : node.textContent = "a > b\n&lt;<éc" := by decide
  refine ⟨by decide +kernel, ?_⟩
  rw [← text]
  exact decode_eraseTags_render rfl bare

end Config

end HtmlPrinter
