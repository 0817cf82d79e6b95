import HtmlPrinter.Proofs.DocumentOrder
import HtmlPrinter.Proofs.SiblingMarkup

/-!
# Nested roots

A root stands for its children. Splicing puts the children of each nested root in its place, but
for the roots in a script or a style, where they make a difference: text directly in a script is
raw, and text in a root in a script is not. Where all tags are kept and no start tag is closed for
want of children, splicing changes no rendering; `render_spliced` says so.
-/

namespace HtmlPrinter

namespace Node

mutual

/-- Splices the roots in a node, which may be a root itself; `raw` says that the nearest element
around the node holds raw text. -/
def splice (raw : Bool) : Node → List Node
  | .root children =>
      if raw then [.root (spliceAll true children)] else spliceAll false children
  | .element ⟨tag, attrs, children⟩ =>
      [.element ⟨tag, attrs, spliceAll (holdsRawText tag) children⟩]
  | .text content => [.text content]
  | .comment content => [.comment content]
  | .doctype name => [.doctype name]
  | .raw markup => [.raw markup]

def spliceAll (raw : Bool) : List Node → List Node
  | [] => []
  | node :: rest => splice raw node ++ spliceAll raw rest

end

/-- Splices all nested roots in a tree. -/
def spliced : Node → Node
  | .root children => .root (spliceAll false children)
  | .element ⟨tag, attrs, children⟩ =>
      .element ⟨tag, attrs, spliceAll (holdsRawText tag) children⟩
  | node => node

mutual

/-- Decides whether a node is, or has below it, a root outside raw text. -/
def holdsRoot (raw : Bool) : Node → Bool
  | .root children => !raw || holdsRoots raw children
  | .element ⟨tag, _, children⟩ => holdsRoots (holdsRawText tag) children
  | .text _ | .comment _ | .doctype _ | .raw _ => false

def holdsRoots (raw : Bool) : List Node → Bool
  | [] => false
  | node :: rest => holdsRoot raw node || holdsRoots raw rest

end

/-- Decides whether all nested roots of a tree are in raw text. -/
def isSpliced : Node → Bool
  | .root children => !holdsRoots false children
  | node => !holdsRoot false node

private theorem spliceAll_append (raw : Bool) (first second : List Node) :
    spliceAll raw (first ++ second) = spliceAll raw first ++ spliceAll raw second := by
  induction first with
  | nil => rfl
  | cons node rest ih => rw [List.cons_append, spliceAll, ih, spliceAll, List.append_assoc]

private theorem holdsRoots_append (raw : Bool) (first second : List Node) :
    holdsRoots raw (first ++ second) = (holdsRoots raw first || holdsRoots raw second) := by
  induction first with
  | nil => rfl
  | cons node rest ih => rw [List.cons_append, holdsRoots, ih, holdsRoots, Bool.or_assoc]

mutual

private theorem holdsRoots_splice (raw : Bool) :
    ∀ node : Node, holdsRoots raw (splice raw node) = false
  | .root children => by
      cases raw with
      | true => simp [splice, holdsRoots, holdsRoot, holdsRoots_spliceAll true children]
      | false => simp [splice, holdsRoots_spliceAll false children]
  | .element ⟨tag, _, children⟩ => by
      simp [splice, holdsRoots, holdsRoot, holdsRoots_spliceAll (holdsRawText tag) children]
  | .text _ | .comment _ | .doctype _ | .raw _ => by simp [splice, holdsRoots, holdsRoot]

private theorem holdsRoots_spliceAll (raw : Bool) :
    ∀ nodes : List Node, holdsRoots raw (spliceAll raw nodes) = false
  | [] => rfl
  | node :: rest => by
      rw [spliceAll, holdsRoots_append, holdsRoots_splice raw node, holdsRoots_spliceAll raw rest]
      rfl

end

private theorem isSpliced_spliced (node : Node) : node.spliced.isSpliced = true := by
  cases node with
  | root children => simp [spliced, isSpliced, holdsRoots_spliceAll]
  | element e =>
      obtain ⟨tag, attrs, children⟩ := e
      simp [spliced, isSpliced, holdsRoot, holdsRoots_spliceAll]
  | _ => rfl

end Node

/-- Says that text is written alike below two parents: below the same one where raw text is held,
and otherwise below any two that hold none. -/
inductive TextAlike : Bool → Option String → Option String → Prop
  | same (parent : Option String) : TextAlike true parent parent
  | plain {left right : Option String} (hleft : ∀ tag ∈ left, holdsRawText tag = false)
      (hright : ∀ tag ∈ right, holdsRawText tag = false) : TextAlike false left right

namespace TextAlike

theorem child (tag : String) : TextAlike (holdsRawText tag) (some tag) (some tag) := by
  cases h : holdsRawText tag with
  | true => exact .same (some tag)
  | false =>
      have plain : ∀ name ∈ some tag, holdsRawText name = false := by
        rintro name ⟨⟩
        exact h
      exact .plain plain plain

private theorem left_none {left right : Option String} (h : TextAlike false left right) :
    TextAlike false left none := by
  cases h with
  | plain hleft hright => exact .plain hleft (by simp)

end TextAlike

namespace Config

variable {cfg : Config} {dialect : Dialect}

private theorem markup_text_congr {raw : Bool} {p q : Place} (h : TextAlike raw p.parent q.parent)
    (content : String) :
    cfg.markup dialect p (.text content) = cfg.markup dialect q (.text content) := by
  generalize hp : p.parent = left at h
  generalize hq : q.parent = right at h
  cases h with
  | same => simp [markup, pieces, hp, hq]
  | plain hleft hright => rw [markup_text (hp ▸ hleft), markup_text (hq ▸ hright)]

private theorem markup_element_of_kept (hkeep : cfg.omitOptionalTags = false)
    (hopen : cfg.closeEmptyElements = false) {tag : String} {attrs : Attributes}
    {children children' : List Node} {p q : Place}
    (hbelow : cfg.markupFrom (dialect.enter tag) (some tag) children 0 children =
      cfg.markupFrom (dialect.enter tag) (some tag) children' 0 children') :
    cfg.markup dialect p (.element ⟨tag, attrs, children⟩) =
      cfg.markup dialect q (.element ⟨tag, attrs, children'⟩) := by
  refine markup_element_congr ?_ ?_ ?_ hbelow
  · cases dialect.enter tag with
    | html => rfl
    | svg => simp [selfCloses, hopen]
  · simp [omitsStartTag, omits, hkeep]
  · simp [omitsEndTag, omits, hkeep]

/-- Says that splicing the roots among siblings leaves their markup as it is. -/
def SplicesAway (cfg : Config) (nodes : List Node) : Prop :=
  ∀ {raw dialect parent parent' siblings siblings' index index'}, TextAlike raw parent parent' →
    cfg.markupFrom dialect parent siblings index (Node.spliceAll raw nodes) =
      cfg.markupFrom dialect parent' siblings' index' nodes

variable {node : Node} {nodes : List Node}

private theorem markupFrom_splice (hkeep : cfg.omitOptionalTags = false)
    (hopen : cfg.closeEmptyElements = false) (hchildren : cfg.SplicesAway node.children)
    {raw : Bool} {parent : Option String} {siblings : List Node} {index : Nat} {place : Place}
    (h : TextAlike raw parent place.parent) :
    cfg.markupFrom dialect parent siblings index (Node.splice raw node) =
      cfg.markup dialect place node := by
  have single : ∀ other : Node, cfg.markupFrom dialect parent siblings index [other] =
      cfg.markup dialect ⟨parent, siblings, index⟩ other := by
    intro other
    rw [markupFrom_cons, markupFrom_nil, String.append_empty]
  cases node with
  | root children =>
      cases raw with
      | true =>
          rw [Node.splice, if_pos rfl, single]
          exact hchildren (.same none)
      | false =>
          rw [Node.splice, if_neg Bool.false_ne_true]
          exact hchildren h.left_none
  | element e =>
      obtain ⟨tag, attrs, children⟩ := e
      rw [Node.splice, single]
      exact markup_element_of_kept hkeep hopen (hchildren (.child tag))
  | text content =>
      rw [Node.splice, single]
      exact markup_text_congr h content
  | comment content =>
      rw [Node.splice, single]
      rfl
  | doctype name =>
      rw [Node.splice, single]
      rfl
  | raw markup =>
      rw [Node.splice, single]
      rfl

private theorem splicesAway_nil : cfg.SplicesAway [] := fun _ => rfl

private theorem splicesAway_cons (hkeep : cfg.omitOptionalTags = false)
    (hopen : cfg.closeEmptyElements = false) (hchildren : cfg.SplicesAway node.children)
    (hrest : cfg.SplicesAway nodes) : cfg.SplicesAway (node :: nodes) := by
  intro raw dialect parent parent' siblings siblings' index index' h
  have first : cfg.markupFrom dialect parent siblings index (Node.splice raw node) =
      cfg.markup dialect ⟨parent', siblings', index'⟩ node :=
    markupFrom_splice hkeep hopen hchildren h
  rw [Node.spliceAll, markupFrom_append, markupFrom_cons, first, hrest h]

mutual

private theorem splicesAway_children (hkeep : cfg.omitOptionalTags = false)
    (hopen : cfg.closeEmptyElements = false) : ∀ node : Node, cfg.SplicesAway node.children
  | .element ⟨_, _, children⟩ => splicesAway hkeep hopen children
  | .root children => splicesAway hkeep hopen children
  | .text _ => splicesAway_nil
  | .comment _ => splicesAway_nil
  | .doctype _ => splicesAway_nil
  | .raw _ => splicesAway_nil

theorem splicesAway (hkeep : cfg.omitOptionalTags = false)
    (hopen : cfg.closeEmptyElements = false) : ∀ nodes : List Node, cfg.SplicesAway nodes
  | [] => splicesAway_nil
  | node :: nodes =>
      splicesAway_cons hkeep hopen (splicesAway_children hkeep hopen node)
        (splicesAway hkeep hopen nodes)

end

private theorem markup_spliced (hkeep : cfg.omitOptionalTags = false)
    (hopen : cfg.closeEmptyElements = false) (node : Node) :
    cfg.markup .html (.alone node.spliced) node.spliced = cfg.markup .html (.alone node) node := by
  have below : cfg.SplicesAway node.children := splicesAway_children hkeep hopen node
  cases node with
  | root children => exact below (.plain (by simp) (by simp))
  | element e =>
      obtain ⟨tag, attrs, children⟩ := e
      exact markup_element_of_kept hkeep hopen (below (.child tag))
  | _ => rfl

theorem render_spliced_eq (hkeep : cfg.omitOptionalTags = false)
    (hopen : cfg.closeEmptyElements = false) (node : Node) :
    cfg.render node.spliced = cfg.render node := by
  rw [render_eq_markup, markup_spliced hkeep hopen, render_eq_markup]

theorem render_root_append (hkeep : cfg.omitOptionalTags = false)
    (hopen : cfg.closeEmptyElements = false) (first second : List Node) :
    cfg.render (.root (first ++ second)) =
      cfg.render (.root first) ++ cfg.render (.root second) := by
  have nested : (Node.root (first ++ second)).spliced =
      (Node.root [.root first, .root second]).spliced := by
    simp [Node.spliced, Node.spliceAll, Node.splice, Node.spliceAll_append]
  calc cfg.render (.root (first ++ second))
      = cfg.render (.root [.root first, .root second]) := by
        rw [← render_spliced_eq hkeep hopen, nested, render_spliced_eq hkeep hopen]
    _ = cfg.render (.root first) ++ cfg.render (.root second) := by
        simp only [render_eq_markup, markup_root, markupFrom_cons, markupFrom_nil,
          String.append_empty]

/-- Where all tags are kept and no start tag is closed for want of children, a tree is printed as it
is with all nested roots outside raw text spliced, and the children of a root can be printed in
parts. -/
theorem render_spliced (cfg : Config) (hkeep : cfg.omitOptionalTags = false)
    (hopen : cfg.closeEmptyElements = false) :
    (∀ node : Node, node.spliced.isSpliced = true ∧ cfg.render node.spliced = cfg.render node) ∧
    ∀ first second : List Node, cfg.render (.root (first ++ second)) =
      cfg.render (.root first) ++ cfg.render (.root second) := by
  refine ⟨fun node => ⟨node.isSpliced_spliced, render_spliced_eq hkeep hopen node⟩, ?_⟩
  exact fun first second => render_root_append hkeep hopen first second

theorem render_spliced_article :
    let cfg : Config := { closeSelfClosing := true, allowDangerousHtml := true }
    let article : Element :=
      ⟨"article", ∅, [.root [.text "a<", .element ⟨"br", ∅, []⟩], .root [.root [.raw "<b>"]]]⟩
    let drawing : Element := ⟨"svg", ∅, [.root [.element ⟨"g", ∅, [.root []]⟩]]⟩
    let script : Element := ⟨"script", ∅, [.root [.text "1<2", .root [.text "<"]], .text "3<4"]⟩
    let node : Node := .root [.element article, .root [.element drawing, .element script]]
    cfg.omitOptionalTags = false ∧ cfg.closeEmptyElements = false ∧ node.isSpliced = false ∧
      node.spliced.isSpliced = true ∧ cfg.render node.spliced = cfg.render node ∧
      cfg.render node = "<article>a&#x3C;<br /><b></article><svg><g></g></svg>" ++
        "<script>1&#x3C;2&#x3C;3<4</script>" ∧
      cfg.render node = cfg.render (.root [.element article]) ++
        cfg.render (.root [.root [.element drawing, .element script]]) := by
  intro cfg article drawing script node
  obtain ⟨alike, parts⟩ := cfg.render_spliced rfl rfl
  have done := alike node
  exact ⟨rfl, rfl, by decide, done.1, done.2, by decide +kernel, parts [.element article] _⟩

end Config

end HtmlPrinter
