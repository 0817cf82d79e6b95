import HtmlPrinter.Proofs.TagUnique
import HtmlPrinter.Piece
import Mathlib.Data.List.Infix

/-!
# Trees that can be read back

Markup says less than a tree does: texts that touch run together, a comment ends at the first
`-->`, and a void element has no place for children. A tree in which nothing of this happens is
sound. When end tags are left out a reader must also find where elements end: it closes an open
element at a tag that may follow it, so no such tag may stand below the element, as far down as
the reader would close elements one after another.
-/

namespace HtmlPrinter

namespace EndRule

/-- Lists the elements in front of which an end tag is left out. -/
def followers : EndRule → List String
  | lastOr tags | followedBy tags => tags
  | paragraph => paragraphEnders
  | boundary | last => []

end EndRule

/-- Lists the elements in front of which the end tag of an element is left out. -/
def followers (tag : String) : List String := (endRule? tag).elim [] EndRule.followers

def isRuled (tag : String) : Bool := (endRule? tag).isSome

/-- Lists the elements that no reader can restore, and those whose content is read otherwise. -/
def unrestored : List String :=
  ["html", "head", "body", "colgroup", "caption", "thead", "tbody", "tfoot", "svg", "script",
    "style"]

namespace Node

def isText : Node → Bool
  | .text _ => true
  | _ => false

mutual

/-- Lists the tags of the elements in a tree that are reached through ruled elements only. -/
def chainedTags : Node → List String
  | .element ⟨tag, _, children⟩ => tag :: if isRuled tag then chainedTagsList children else []
  | .root _ | .text _ | .comment _ | .doctype _ | .raw _ => []

def chainedTagsList : List Node → List String
  | [] => []
  | node :: rest => chainedTags node ++ chainedTagsList rest

end

mutual

/-- Decides whether a property holds everywhere in a tree, and no two texts touch below it. -/
def everywhere (p : Dialect → Node → Bool) (dialect : Dialect) : Node → Bool
  | .root children => p dialect (.root children) && everywhereList p dialect children
  | .element ⟨tag, attrs, children⟩ =>
      p dialect (.element ⟨tag, attrs, children⟩) && everywhereList p (dialect.enter tag) children
  | .text content => p dialect (.text content)
  | .comment content => p dialect (.comment content)
  | .doctype name => p dialect (.doctype name)
  | .raw markup => p dialect (.raw markup)

def everywhereList (p : Dialect → Node → Bool) (dialect : Dialect) : List Node → Bool
  | [] => true
  | node :: rest =>
      everywhere p dialect node && !(node.isText && rest.head?.any isText) &&
        everywhereList p dialect rest

end

/-- Decides whether markup without omissions tells a node. -/
def isSound (cfg : Config) (dialect : Dialect) : Node → Bool
  | .element e =>
      isTagName e.tag && !holdsRawText e.tag && e.attrs.isPlain &&
        (dialect.enter e.tag == .svg || !cfg.isVoid e.tag || e.children.isEmpty)
  | .text content => !content.isEmpty
  | .comment content => decide ¬ ['-', '-', '>'] <:+: content.toList
  | .doctype name => !name.isEmpty && !name.toList.contains '>'
  | .root _ | .raw _ => false

/-- Decides whether a reader restores the end tags left out around a node: no blank text hides what
follows, and nothing below an element would end it. -/
def isRestorable : Node → Bool
  | .element e =>
      !nameIn e.tag unrestored && (chainedTagsList e.children).all (!nameIn · (followers e.tag))
  | node => !node.isBlank

def isReadable (cfg : Config) (dialect : Dialect) (node : Node) : Bool :=
  node.isSound cfg dialect && (!cfg.omits dialect || node.isRestorable)

def isRootOver (p : Dialect → Node → Bool) : Node → Bool
  | .root children => everywhereList p .html children
  | _ => false

/-- Decides whether a tree is a root over sound nodes. -/
def isNormal (cfg : Config) (node : Node) : Bool := node.isRootOver (isSound cfg)

/-- Decides whether a tree is a root over sound nodes around which end tags are restorable. -/
def isConforming (cfg : Config) (node : Node) : Bool :=
  node.isRootOver fun dialect node => node.isSound cfg dialect && node.isRestorable

variable {p q : Dialect → Node → Bool}

theorem everywhereList_cons {dialect : Dialect} {node : Node} {rest : List Node} :
    everywhereList p dialect (node :: rest) = true ↔
      everywhere p dialect node = true ∧ ¬ (node.isText = true ∧ rest.head?.any isText = true) ∧
        everywhereList p dialect rest = true := by
  rw [everywhereList, Bool.and_eq_true, Bool.and_eq_true, Bool.not_eq_true', ← Bool.not_eq_true,
    Bool.and_eq_true, and_assoc]

mutual

private theorem everywhere_mono (h : ∀ dialect node, p dialect node = true → q dialect node = true)
    (dialect : Dialect) :
    (node : Node) → everywhere p dialect node = true → everywhere q dialect node = true
  | .root children => by
      simp only [everywhere, Bool.and_eq_true]
      exact fun ⟨here, below⟩ => ⟨h _ _ here, everywhereList_mono h dialect children below⟩
  | .element ⟨tag, attrs, children⟩ => by
      simp only [everywhere, Bool.and_eq_true]
      exact fun ⟨here, below⟩ =>
        ⟨h _ _ here, everywhereList_mono h (dialect.enter tag) children below⟩
  | .text _ | .comment _ | .doctype _ | .raw _ => by
      simp only [everywhere]
      exact h _ _

theorem everywhereList_mono (h : ∀ dialect node, p dialect node = true → q dialect node = true)
    (dialect : Dialect) :
    (nodes : List Node) →
      everywhereList p dialect nodes = true → everywhereList q dialect nodes = true
  | [] => fun _ => rfl
  | node :: rest => by
      rw [everywhereList_cons, everywhereList_cons]
      rintro ⟨first, apart, others⟩
      exact ⟨everywhere_mono h dialect node first, apart, everywhereList_mono h dialect rest others⟩

end

theorem holds_of_everywhere {dialect : Dialect} {node : Node}
    (h : everywhere p dialect node = true) : p dialect node = true := by
  cases node with
  | element e =>
      obtain ⟨tag, attrs, children⟩ := e
      rw [everywhere, Bool.and_eq_true] at h
      exact h.1
  | root children =>
      rw [everywhere, Bool.and_eq_true] at h
      exact h.1
  | _ => simpa [everywhere] using h

theorem everywhereList_of_element {dialect : Dialect} {e : Element}
    (h : everywhere p dialect (.element e) = true) :
    everywhereList p (dialect.enter e.tag) e.children = true := by
  obtain ⟨tag, attrs, children⟩ := e
  rw [everywhere, Bool.and_eq_true] at h
  exact h.2

theorem chainedTags_element (e : Element) : (Node.element e).chainedTags =
    e.tag :: if isRuled e.tag then chainedTagsList e.children else [] := by
  obtain ⟨tag, attrs, children⟩ := e
  rw [chainedTags]

end Node

private theorem exists_of_endRule? {tag : String} {rule : EndRule} (h : endRule? tag = some rule) :
    ∃ entry ∈ endRules, sameName tag entry.1 = true ∧ entry.2 = rule := by
  obtain ⟨entry, hfind, hrule⟩ := Option.map_eq_some_iff.1 h
  exact ⟨entry, List.mem_of_find?_eq_some hfind,
    by simpa using List.find?_some hfind, hrule⟩

/-- The rule of a restored element names the elements in front of which it applies, and the element
itself is one of them. -/
theorem followers_of_endRule? {tag : String} {rule : EndRule} (h : endRule? tag = some rule)
    (hrestored : nameIn tag unrestored = false) :
    rule ≠ .boundary ∧ nameIn tag rule.followers = true := by
  have table : ∀ entry ∈ endRules, nameIn entry.1 unrestored = false →
      entry.2 ≠ .boundary ∧ nameIn entry.1 entry.2.followers = true := by
    decide
  obtain ⟨entry, hentry, hname, rfl⟩ := exists_of_endRule? h
  rw [nameIn_congr hname] at hrestored ⊢
  exact table entry hentry hrestored

/-- Two restored elements of one ruled kind cannot be open inside each other. -/
theorem nameIn_followers_self {tag : String} (hruled : isRuled tag = true)
    (hrestored : nameIn tag unrestored = false) : nameIn tag (followers tag) = true := by
  obtain ⟨rule, hrule⟩ := Option.isSome_iff_exists.1 hruled
  rw [followers, hrule]
  exact (followers_of_endRule? hrule hrestored).2

private theorem startRule?_eq_none {tag : String} (hrestored : nameIn tag unrestored = false) :
    startRule? tag = none := by
  have table : ∀ entry ∈ startRules, nameIn entry.1 unrestored = true := by decide
  rw [startRule?, Option.map_eq_none_iff, List.find?_eq_none]
  intro entry hentry hname
  rw [nameIn_congr hname, table entry hentry] at hrestored
  cases hrestored

theorem EndRule.isOneOf_followers {rule : EndRule} {place : Place} {next : Node}
    (hrule : rule ≠ .boundary) (hnext : place.nextSolid? = some next)
    (h : rule.holds place = true) : next.isOneOf rule.followers = true := by
  cases rule with
  | boundary => exact absurd rfl hrule
  | last => simp [holds, hnext] at h
  | _ => simpa [holds, hnext, followers] using h

section Readable

variable {cfg : Config} {dialect : Dialect} {e : Element} {place : Place}

theorem Node.isSound_of_isReadable {node : Node} (h : node.isReadable cfg dialect = true) :
    node.isSound cfg dialect = true := by
  rw [Node.isReadable, Bool.and_eq_true] at h
  exact h.1

theorem Node.isRestorable_of_isReadable {node : Node} (h : node.isReadable cfg dialect = true)
    (homits : cfg.omits dialect = true) : node.isRestorable = true := by
  rw [Node.isReadable, homits, Bool.and_eq_true] at h
  exact h.2

theorem Element.isTagName_of_isReadable
    (h : (Node.element e).isReadable cfg dialect = true) : isTagName e.tag = true := by
  simp only [Node.isReadable, Node.isSound, Bool.and_eq_true] at h
  exact h.1.1.1.1

theorem Element.not_holdsRawText_of_isReadable
    (h : (Node.element e).isReadable cfg dialect = true) : holdsRawText e.tag = false := by
  simp only [Node.isReadable, Node.isSound, Bool.and_eq_true, Bool.not_eq_true'] at h
  exact h.1.1.1.2

theorem Element.isPlain_of_isReadable
    (h : (Node.element e).isReadable cfg dialect = true) : e.attrs.isPlain = true := by
  simp only [Node.isReadable, Node.isSound, Bool.and_eq_true] at h
  exact h.1.1.2

theorem Element.children_of_isLeaf (h : (Node.element e).isReadable cfg dialect = true)
    (hleaf : cfg.isLeaf (dialect.enter e.tag) e = true) : e.children = [] := by
  simp only [Node.isReadable, Node.isSound, Bool.and_eq_true, Bool.or_eq_true, beq_iff_eq,
    Bool.not_eq_true', List.isEmpty_iff] at h
  cases hinner : dialect.enter e.tag with
  | html =>
      rw [hinner, Config.isLeaf] at hleaf
      rcases h.1.2 with (hsvg | hvoid) | hempty
      · rw [hinner] at hsvg
        cases hsvg
      · rw [hleaf] at hvoid
        cases hvoid
      · exact hempty
  | svg =>
      rw [hinner, Config.isLeaf, Config.selfCloses, Bool.and_eq_true, List.isEmpty_iff] at hleaf
      exact hleaf.1

theorem Element.not_unrestored (h : (Node.element e).isReadable cfg dialect = true)
    (homits : cfg.omits dialect = true) : nameIn e.tag unrestored = false := by
  have restorable := Node.isRestorable_of_isReadable h homits
  simp only [Node.isRestorable, Bool.and_eq_true, Bool.not_eq_true'] at restorable
  exact restorable.1

theorem Element.omits_enter (h : (Node.element e).isReadable cfg dialect = true) :
    cfg.omits (dialect.enter e.tag) = cfg.omits dialect := by
  by_cases hsvg : sameName e.tag "svg" = true
  · cases homits : cfg.omits dialect with
    | false =>
        rw [Dialect.enter, if_pos hsvg, Config.omits_svg]
    | true =>
        have absent := e.not_unrestored h homits
        have listed : nameIn "svg" unrestored = true := by decide
        rw [nameIn_congr hsvg, listed] at absent
        cases absent
  · rw [Dialect.enter, if_neg hsvg]

theorem Element.omitsStartTag_eq_false (h : (Node.element e).isReadable cfg dialect = true) :
    cfg.omitsStartTag (dialect.enter e.tag) e place = false := by
  rw [Config.omitsStartTag, e.omits_enter h]
  cases homits : cfg.omits dialect with
  | false => rfl
  | true =>
      rw [Element.startTagImplied, startRule?_eq_none (e.not_unrestored h homits)]
      simp

theorem Element.exists_rule_of_omitsEndTag (h : (Node.element e).isReadable cfg dialect = true)
    (homitted : cfg.omitsEndTag (dialect.enter e.tag) e place = true) :
    cfg.omits dialect = true ∧ ∃ rule, endRule? e.tag = some rule ∧ rule.holds place = true := by
  rw [Config.omitsEndTag, e.omits_enter h, Bool.and_eq_true, Element.endTagImplied] at homitted
  obtain ⟨homits, himplied⟩ := homitted
  cases hrule : endRule? e.tag with
  | none => simp [hrule] at himplied
  | some rule => exact ⟨homits, rule, rfl, by simpa [hrule] using himplied⟩

theorem Element.isRuled_of_omitsEndTag (h : (Node.element e).isReadable cfg dialect = true)
    (homitted : cfg.omitsEndTag (dialect.enter e.tag) e place = true) : isRuled e.tag = true := by
  obtain ⟨-, rule, hrule, -⟩ := e.exists_rule_of_omitsEndTag h homitted
  rw [isRuled, hrule]
  rfl

theorem Element.apart_of_isReadable (h : (Node.element e).isReadable cfg dialect = true)
    (homits : cfg.omits dialect = true) :
    ∀ t ∈ Node.chainedTagsList e.children, nameIn t (followers e.tag) = false := by
  have restorable := Node.isRestorable_of_isReadable h homits
  simp only [Node.isRestorable, Bool.and_eq_true, List.all_eq_true, Bool.not_eq_true']
    at restorable
  exact restorable.2

end Readable

end HtmlPrinter
