import HtmlPrinter.Proofs.Closing
import HtmlPrinter.Proofs.DocumentOrder
import HtmlPrinter.Proofs.SiblingMarkup

/-!
# Markup is unambiguous

Two readable trees with the same markup are equal, whether end tags are left out or not. The proof
goes through both trees at once and compares the texts of siblings together with what stands behind
them. Where one list of siblings ends and the other goes on, the next start tag would close an
open element, which no tag below that element does; and an end tag cannot be left out in one
tree and written in the other, since an element follows itself where its end tag can be left out.
-/

namespace HtmlPrinter

namespace Config

variable {cfg : Config} {dialect : Dialect}

private theorem startTag_starts (dialect : Dialect) (e : Element) (x : List Char) :
    ∃ rest, (cfg.startTag dialect e).toList ++ x = '<' :: (e.tag.toList ++ rest) ∧
      ∀ c ∈ rest.head?, isTagChar c = false := by
  obtain ⟨stacked, htext⟩ := cfg.startTag_toList_tagRest dialect e
  rw [htext, List.cons_append, List.append_assoc]
  exact ⟨_, rfl, tagRest_head _ _ _ _⟩

end Config

private theorem Node.lead_markup {cfg : Config} {dialect : Dialect} {place : Place}
    (hent : cfg.entities = ∅) (hparent : ∀ tag ∈ place.parent, holdsRawText tag = false)
    {node : Node} (h : node.isReadable cfg dialect = true) (x : List Char) :
    HtmlPrinter.lead ((cfg.markup dialect place node).toList ++ x) = node.lead := by
  have sound := Node.isSound_of_isReadable h
  cases node with
  | root children => cases sound
  | raw markup => cases sound
  | element e =>
      obtain ⟨rest, hstarts, -⟩ := Config.startTag_starts (dialect.enter e.tag) e
        ((cfg.contentText (dialect.enter e.tag) e place).toList ++ x)
      rw [Config.markup_element_append (e.omitsStartTag_eq_false h), hstarts,
        lead_tagName (e.isTagName_of_isReadable h)]
      rfl
  | text content =>
      rw [Config.markup_text hparent]
      cases hchars : ((cfg.escaping .text).escaped content).toList with
      | nil =>
          have empty := Escaping.escaped_eq_empty_iff.1 (String.toList_eq_nil_iff.1 hchars)
          subst empty
          cases sound
      | cons c cs =>
          have absent : '<' ∉ ((cfg.escaping .text).escaped content).toList :=
            Config.not_mem_escaped_of_required hent (by decide) (by decide) content
          have hc : c ≠ '<' := fun hc => absent (hchars ▸ hc ▸ List.mem_cons_self)
          simp [HtmlPrinter.lead, hc, Node.lead]
  | comment content =>
      rw [Config.markup_comment]
      simp [HtmlPrinter.lead, Node.lead]
  | doctype name =>
      have named : name.isEmpty = false := by
        simp only [Node.isSound, Bool.and_eq_true, Bool.not_eq_true'] at sound
        exact sound.1
      rw [Config.markup_doctype place named]
      simp [HtmlPrinter.lead, Node.lead]

namespace Config

/-- Says that a text can stand behind a node: it does not go on with the text of the node, and it
closes the element where the end tag is left out. -/
def Follows (cfg : Config) (dialect : Dialect) (opened : List String) (place : Place) :
    Node → List Char → Prop
  | .text _, x => lead x ≠ .text
  | .element e, x =>
      cfg.omitsEndTag (dialect.enter e.tag) e place = true →
        Closes (cfg.omits dialect) opened x ∨ StartsBehind [e.tag] x
  | _, _ => True

/-- Says that a readable node stands below open elements, in front of a text. -/
structure Stands (cfg : Config) (dialect : Dialect) (opened : List String) (place : Place)
    (node : Node) (x : List Char) : Prop where
  escapes : ∀ tag ∈ place.parent, holdsRawText tag = false
  readable : node.everywhere (Node.isReadable cfg) dialect = true
  apart : cfg.omits dialect = true →
    ∀ o ∈ opened, ∀ t ∈ node.chainedTags, nameIn t (followers o) = false
  follows : cfg.Follows dialect opened place node x

/-- Says that readable nodes are the last siblings below open elements, in front of a text. -/
structure StandLast (cfg : Config) (dialect : Dialect) (opened : List String)
    (parent : Option String) (siblings : List Node) (index : Nat) (nodes : List Node)
    (x : List Char) : Prop where
  escapes : ∀ tag ∈ parent, holdsRawText tag = false
  last : siblings.drop index = nodes
  readable : Node.everywhereList (Node.isReadable cfg) dialect nodes = true
  apart : cfg.omits dialect = true →
    ∀ o ∈ opened, ∀ t ∈ Node.chainedTagsList nodes, nameIn t (followers o) = false
  closes : Closes (cfg.omits dialect) opened x

variable {cfg : Config} {dialect : Dialect} {opened : List String} {place place' : Place}
  {parent : Option String} {siblings siblings' : List Node} {index index' : Nat}
  {node node' : Node} {nodes nodes' : List Node} {x y : List Char}

namespace StandLast

private theorem isReadable_head
    (h : cfg.StandLast dialect opened parent siblings index (node :: nodes) x) :
    node.isReadable cfg dialect = true := by
  obtain ⟨first, -, -⟩ := Node.everywhereList_cons.1 h.readable
  exact Node.holds_of_everywhere first

theorem tail (h : cfg.StandLast dialect opened parent siblings index (node :: nodes) x) :
    cfg.StandLast dialect opened parent siblings (index + 1) nodes x where
  escapes := h.escapes
  last := Place.following_of_drop parent h.last
  readable := (Node.everywhereList_cons.1 h.readable).2.2
  apart := by
    intro homits o ho t ht
    apply h.apart homits o ho
    rw [Node.chainedTagsList]
    exact List.mem_append_right _ ht
  closes := h.closes

private theorem startsBehind {e : Element}
    (hreadable : (Node.element e).isReadable cfg dialect = true)
    (hfollowing : (Place.mk parent siblings index).following = node :: nodes)
    (homitted :
      cfg.omitsEndTag (dialect.enter e.tag) e ⟨parent, siblings, index⟩ = true)
    (h : cfg.StandLast dialect opened parent siblings (index + 1) (node :: nodes) x) :
    StartsBehind [e.tag] ((cfg.markupFrom dialect parent siblings (index + 1)
      (node :: nodes)).toList ++ x) := by
  obtain ⟨homits, rule, hrule, hholds⟩ := e.exists_rule_of_omitsEndTag hreadable homitted
  have notBlank : node.isBlank = false := by
    have restorable := Node.isRestorable_of_isReadable h.isReadable_head homits
    cases node <;> simp_all [Node.isRestorable, Node.isBlank]
  have next : (Place.mk parent siblings index).nextSolid? = some node := by
    rw [Place.nextSolid?, hfollowing]
    simp [notBlank]
  have named := (followers_of_endRule? hrule (e.not_unrestored hreadable homits)).1
  have follows := EndRule.isOneOf_followers named next hholds
  cases node with
  | element e' =>
      have hreadable' := h.isReadable_head
      obtain ⟨rest, hstarts, hrest⟩ := startTag_starts (dialect.enter e'.tag) e'
        ((cfg.contentText (dialect.enter e'.tag) e' ⟨parent, siblings, index + 1⟩).toList ++
          ((cfg.markupFrom dialect parent siblings (index + 1 + 1) nodes).toList ++ x))
      refine ⟨e'.tag, rest, ?_, e'.isTagName_of_isReadable hreadable', hrest, e.tag,
        List.mem_singleton_self _, ?_⟩
      · rw [← hstarts, markupFrom_cons_append,
          markup_element_append (e'.omitsStartTag_eq_false hreadable')]
      · rw [followers, hrule]
        exact follows
  | _ => cases follows

theorem head (hent : cfg.entities = ∅)
    (h : cfg.StandLast dialect opened parent siblings index (node :: nodes) x) :
    cfg.Stands dialect opened ⟨parent, siblings, index⟩ node
      ((cfg.markupFrom dialect parent siblings (index + 1) nodes).toList ++ x) where
  escapes := h.escapes
  readable := (Node.everywhereList_cons.1 h.readable).1
  apart := by
    intro homits o ho t ht
    apply h.apart homits o ho
    rw [Node.chainedTagsList]
    exact List.mem_append_left _ ht
  follows := by
    cases nodes with
    | nil =>
        rw [markupFrom_nil, String.toList_empty, List.nil_append]
        cases node with
        | text content => exact h.closes.lead_ne_text
        | element e =>
            intro homitted
            exact .inl h.closes
        | _ => trivial
    | cons next rest =>
        have following : (Place.mk parent siblings index).following = next :: rest := h.tail.last
        cases node with
        | text content =>
            have readable := h.tail.isReadable_head
            have untouched : next.isText ≠ true := by
              intro touched
              exact (Node.everywhereList_cons.1 h.readable).2.1 ⟨rfl, touched⟩
            show lead _ ≠ .text
            rw [markupFrom_cons_append, Node.lead_markup hent h.escapes readable]
            cases next <;> simp_all [Node.lead, Node.isText]
        | element e =>
            intro homitted
            exact .inr (startsBehind h.isReadable_head following homitted h.tail)
        | _ => trivial

private theorem not_cons (hent : cfg.entities = ∅)
    (h : cfg.StandLast dialect opened parent siblings index (node :: nodes) x)
    (hclosed : Closes (cfg.omits dialect) opened
      ((cfg.markupFrom dialect parent siblings index (node :: nodes)).toList ++ x)) : False := by
  have readable := h.isReadable_head
  have starts : lead ((cfg.markupFrom dialect parent siblings index (node :: nodes)).toList ++ x) =
      node.lead := by
    rw [markupFrom_cons_append]
    exact Node.lead_markup hent h.escapes readable _
  cases node with
  | element e =>
      obtain ⟨homits, tag, rest, htext, htag, hrest, o, ho, hfollows⟩ :=
        hclosed.startsBehind_of_lead starts
      obtain ⟨rest', hstarts, hrest'⟩ := startTag_starts (dialect.enter e.tag) e
        ((cfg.contentText (dialect.enter e.tag) e ⟨parent, siblings, index⟩).toList ++
          ((cfg.markupFrom dialect parent siblings (index + 1) nodes).toList ++ x))
      rw [markupFrom_cons_append, markup_element_append (e.omitsStartTag_eq_false readable),
        hstarts] at htext
      obtain ⟨rfl, -⟩ := tagName_unique (e.isTagName_of_isReadable readable) htag hrest' hrest
        (List.cons.inj htext).2
      have chained : e.tag ∈ Node.chainedTagsList (.element e :: nodes) := by
        rw [Node.chainedTagsList, Node.chainedTags_element]
        apply List.mem_append_left
        exact List.mem_cons_self
      -- the reader would take this very start tag for the end of `o`
      have apart := h.apart homits o ho e.tag chained
      rw [hfollows] at apart
      cases apart
  | root children => cases Node.isSound_of_isReadable readable
  | raw markup => cases Node.isSound_of_isReadable readable
  | _ => rcases hclosed.lead_eq with hlead | hlead | hlead <;> rw [starts] at hlead <;> cases hlead

end StandLast

namespace Stands

variable {e e' : Element}

theorem isReadable (h : cfg.Stands dialect opened place node x) :
    node.isReadable cfg dialect = true :=
  Node.holds_of_everywhere h.readable

theorem content (h : cfg.Stands dialect opened place (.element e) x) :
    cfg.StandLast (dialect.enter e.tag) (if isRuled e.tag then e.tag :: opened else []) (some e.tag)
      e.children 0 e.children ((cfg.endText (dialect.enter e.tag) e place).toList ++ x) where
  escapes := by
    rintro tag ⟨⟩
    exact e.not_holdsRawText_of_isReadable h.isReadable
  last := List.drop_zero
  readable := Node.everywhereList_of_element h.readable
  apart := by
    intro homits o ho t ht
    rw [e.omits_enter h.isReadable] at homits
    -- an element that always has an end tag shields its content from all that is open around it
    by_cases hruled : isRuled e.tag = true
    · rw [if_pos hruled, List.mem_cons] at ho
      rcases ho with rfl | ho
      · exact e.apart_of_isReadable h.isReadable homits t ht
      · apply h.apart homits o ho
        rw [Node.chainedTags_element, if_pos hruled]
        exact List.mem_cons_of_mem _ ht
    · rw [if_neg hruled] at ho
      cases ho
  closes := by
    rw [e.omits_enter h.isReadable]
    by_cases homitted : cfg.omitsEndTag (dialect.enter e.tag) e place = true
    · have homits := (e.exists_rule_of_omitsEndTag h.isReadable homitted).1
      rw [endText, if_pos homitted, String.toList_empty, List.nil_append,
        if_pos (e.isRuled_of_omitsEndTag h.isReadable homitted)]
      rcases h.follows homitted with hcloses | hstarts
      · exact hcloses.mono (List.subset_cons_self e.tag opened)
      · exact .startTag homits (hstarts.mono (by simp))
    · rw [endText, if_neg homitted, endTag_append]
      apply Closes.endTag x (e.isTagName_of_isReadable h.isReadable)
      intro homits hruled
      rw [if_pos hruled]
      exact List.mem_cons_self

private theorem ne_endTag (h : cfg.Stands dialect opened place (.element e) x)
    (homitted : cfg.omitsEndTag (dialect.enter e.tag) e place = true) (y : List Char) :
    x ≠ '<' :: '/' :: (e.tag.toList ++ '>' :: y) := by
  rintro rfl
  obtain ⟨homits, -⟩ := e.exists_rule_of_omitsEndTag h.isReadable homitted
  have ruled := e.isRuled_of_omitsEndTag h.isReadable homitted
  rcases h.follows homitted with hcloses | hstarts
  · -- the end tag belongs to an element of this name further out, which this one would end
    have outer := hcloses.mem_of_endTag (e.isTagName_of_isReadable h.isReadable) ruled homits
    have chained : e.tag ∈ (Node.element e).chainedTags := by
      rw [Node.chainedTags_element]
      exact List.mem_cons_self
    have apart := h.apart homits e.tag outer e.tag chained
    rw [nameIn_followers_self ruled (e.not_unrestored h.isReadable homits)] at apart
    cases apart
  · have starts := hstarts.lead_eq
    simp [lead] at starts

private theorem endText_unique (h : cfg.Stands dialect opened place (.element e) x)
    (h' : cfg.Stands dialect opened place' (.element e') y) (htag : e.tag = e'.tag)
    (htext : (cfg.endText (dialect.enter e.tag) e place).toList ++ x =
      (cfg.endText (dialect.enter e'.tag) e' place').toList ++ y) : x = y := by
  by_cases ho : cfg.omitsEndTag (dialect.enter e.tag) e place = true <;>
    by_cases ho' : cfg.omitsEndTag (dialect.enter e'.tag) e' place' = true
  · simpa [endText, ho, ho'] using htext
  · rw [endText, if_pos ho, endText, if_neg ho', endTag_append, ← htag] at htext
    exact absurd htext (h.ne_endTag ho y)
  · rw [endText, if_neg ho, endText, if_pos ho', htag, endTag_append] at htext
    exact absurd htext.symm (h'.ne_endTag ho' x)
  · rw [endText, if_neg ho, endText, if_neg ho', htag] at htext
    exact List.append_cancel_left htext

theorem lead_eq (hent : cfg.entities = ∅)
    (h : cfg.Stands dialect opened place node x) (h' : cfg.Stands dialect opened place' node' y)
    (htext : (cfg.markup dialect place node).toList ++ x =
      (cfg.markup dialect place' node').toList ++ y) : node.lead = node'.lead := by
  rw [← Node.lead_markup hent h.escapes h.isReadable x, htext,
    Node.lead_markup hent h'.escapes h'.isReadable y]

end Stands

def TellsNode (cfg : Config) (node : Node) : Prop :=
  ∀ {dialect opened parent siblings siblings' index index' node' x y},
    cfg.Stands dialect opened ⟨parent, siblings, index⟩ node x →
    cfg.Stands dialect opened ⟨parent, siblings', index'⟩ node' y →
    (cfg.markup dialect ⟨parent, siblings, index⟩ node).toList ++ x =
      (cfg.markup dialect ⟨parent, siblings', index'⟩ node').toList ++ y →
    node = node' ∧ x = y

/-- Says that siblings are told by their markup, whatever stands behind them. -/
def Tells (cfg : Config) (nodes : List Node) : Prop :=
  ∀ {dialect opened parent siblings siblings' index index' nodes' x y},
    cfg.StandLast dialect opened parent siblings index nodes x →
    cfg.StandLast dialect opened parent siblings' index' nodes' y →
    (cfg.markupFrom dialect parent siblings index nodes).toList ++ x =
      (cfg.markupFrom dialect parent siblings' index' nodes').toList ++ y →
    nodes = nodes' ∧ x = y

private theorem tellsNode_element (hent : cfg.entities = ∅)
    (hindent : ∀ c ∈ cfg.customElementIndent.toList, isSpace c = true) {e : Element}
    (hchildren : cfg.Tells e.children) : cfg.TellsNode (.element e) := by
  intro dialect opened parent siblings siblings' index index' node' x y hx hy h
  have kind := hx.lead_eq hent hy h
  cases node' with
  | element e' =>
      rw [markup_element_append (e.omitsStartTag_eq_false hx.isReadable),
        markup_element_append (e'.omitsStartTag_eq_false hy.isReadable)] at h
      obtain ⟨htag, hattrs, hclosed, hrest⟩ := startTag_unique hent hindent
        (e.isTagName_of_isReadable hx.isReadable) (e'.isTagName_of_isReadable hy.isReadable)
        (e.isPlain_of_isReadable hx.isReadable) (e'.isPlain_of_isReadable hy.isReadable) h
      have build : e.children = e'.children → Node.element e = Node.element e' := by
        intro hsame
        cases e
        cases e'
        simp_all
      have leaves : cfg.isLeaf (dialect.enter e.tag) e = cfg.isLeaf (dialect.enter e'.tag) e' := by
        rw [← htag] at hclosed ⊢
        exact isLeaf_congr htag hclosed
      by_cases hleaf : cfg.isLeaf (dialect.enter e.tag) e = true
      · have hleaf' := leaves ▸ hleaf
        have childless : e.children = e'.children := by
          rw [e.children_of_isLeaf hx.isReadable hleaf, e'.children_of_isLeaf hy.isReadable hleaf']
        rw [contentText, if_pos hleaf, contentText, if_pos hleaf'] at hrest
        exact ⟨build childless, List.append_cancel_left hrest⟩
      · have hleaf' := leaves ▸ hleaf
        have below := hy.content
        rw [contentText_append hleaf, contentText_append hleaf', ← htag] at hrest
        rw [← htag] at below
        obtain ⟨hsame, hends⟩ := hchildren hx.content below hrest
        refine ⟨build hsame, hx.endText_unique hy htag ?_⟩
        rw [htag] at hends ⊢
        exact hends
  | _ => cases kind

private theorem tellsNode_text (hent : cfg.entities = ∅) (content : String) :
    cfg.TellsNode (.text content) := by
  intro dialect opened parent siblings siblings' index index' node' x y hx hy h
  have kind := hx.lead_eq hent hy h
  cases node' with
  | text content' =>
      have inside : ∀ s : String, ∀ c ∈ ((cfg.escaping .text).escaped s).toList,
          (c != '<') = true := by
        intro s c hc
        rw [bne_iff_ne]
        rintro rfl
        exact not_mem_escaped_of_required hent (by decide) (by decide) s hc
      have stops : ∀ z : List Char, lead z ≠ .text → ∀ c ∈ z.head?, (c != '<') = false := by
        intro z hz c hc
        rw [head?_of_lead_ne_text hz c hc]
        rfl
      rw [markup_text hx.escapes, markup_text hy.escapes] at h
      obtain ⟨hsame, hxy⟩ := append_unique (inside content) (inside content') (stops x hx.follows)
        (stops y hy.follows) h
      have contents : content = content' :=
        Escaping.escaped_injective (legible_escaping hent .text) (String.toList_inj.1 hsame)
      exact ⟨by rw [contents], hxy⟩
  | _ => cases kind

private theorem tellsNode_comment (hent : cfg.entities = ∅) (content : String) :
    cfg.TellsNode (.comment content) := by
  intro dialect opened parent siblings siblings' index index' node' x y hx hy h
  have kind := hx.lead_eq hent hy h
  cases node' with
  | comment content' =>
      have sound := Node.isSound_of_isReadable hx.isReadable
      have sound' := Node.isSound_of_isReadable hy.isReadable
      simp only [Node.isSound, decide_eq_true_eq] at sound sound'
      rw [markup_comment, markup_comment] at h
      obtain ⟨hsame, hxy⟩ := comment_unique sound sound' (by simpa using h)
      exact ⟨by rw [String.toList_inj.1 hsame], hxy⟩
  | _ => cases kind

private theorem tellsNode_doctype (hent : cfg.entities = ∅) (name : String) :
    cfg.TellsNode (.doctype name) := by
  intro dialect opened parent siblings siblings' index index' node' x y hx hy h
  have kind := hx.lead_eq hent hy h
  cases node' with
  | doctype name' =>
      have sound := Node.isSound_of_isReadable hx.isReadable
      have sound' := Node.isSound_of_isReadable hy.isReadable
      simp only [Node.isSound, Bool.and_eq_true, Bool.not_eq_true'] at sound sound'
      have inside : ∀ s : String, s.toList.contains '>' = false →
          ∀ c ∈ s.toList, (c != '>') = true := by
        intro s hs c hc
        rw [bne_iff_ne]
        rintro rfl
        simp [hc] at hs
      rw [markup_doctype _ sound.1, markup_doctype _ sound'.1] at h
      simp only [String.toList_append, List.append_assoc] at h
      obtain ⟨hsame, hrest⟩ := append_unique (inside name sound.2) (inside name' sound'.2)
        (by simp) (by simp) (List.append_cancel_left h)
      exact ⟨by rw [String.toList_inj.1 hsame], List.append_cancel_left hrest⟩
  | _ => cases kind

private theorem tells_nil (hent : cfg.entities = ∅) : cfg.Tells [] := by
  intro dialect opened parent siblings siblings' index index' nodes' x y hx hy h
  rw [markupFrom_nil, String.toList_empty, List.nil_append] at h
  -- `x` closes what is open, so nothing readable stands in front of `y` either
  cases nodes' with
  | nil =>
      rw [markupFrom_nil, String.toList_empty, List.nil_append] at h
      exact ⟨rfl, h⟩
  | cons node' nodes' => exact (hy.not_cons hent (h ▸ hx.closes)).elim

private theorem tells_cons (hent : cfg.entities = ∅)
    (hnode : cfg.TellsNode node) (hnodes : cfg.Tells nodes) : cfg.Tells (node :: nodes) := by
  intro dialect opened parent siblings siblings' index index' nodes' x y hx hy h
  cases nodes' with
  | nil =>
      rw [markupFrom_nil, String.toList_empty, List.nil_append] at h
      exact (hx.not_cons hent (h ▸ hy.closes)).elim
  | cons node' nodes' =>
      rw [markupFrom_cons_append, markupFrom_cons_append] at h
      obtain ⟨hfirst, hrest⟩ := hnode (hx.head hent) (hy.head hent) h
      obtain ⟨hothers, hxy⟩ := hnodes hx.tail hy.tail hrest
      exact ⟨by rw [hfirst, hothers], hxy⟩

mutual

theorem tellsNode (hent : cfg.entities = ∅)
    (hindent : ∀ c ∈ cfg.customElementIndent.toList, isSpace c = true) :
    (node : Node) → cfg.TellsNode node
  | .element ⟨_, _, children⟩ => tellsNode_element hent hindent (tells hent hindent children)
  | .text content => tellsNode_text hent content
  | .comment content => tellsNode_comment hent content
  | .doctype name => tellsNode_doctype hent name
  | .root _ | .raw _ => fun hx => by cases Node.isSound_of_isReadable hx.isReadable

theorem tells (hent : cfg.entities = ∅)
    (hindent : ∀ c ∈ cfg.customElementIndent.toList, isSpace c = true) :
    (nodes : List Node) → cfg.Tells nodes
  | [] => tells_nil hent
  | node :: rest => tells_cons hent (tellsNode hent hindent node) (tells hent hindent rest)

end

theorem eq_of_render_eq (hent : cfg.entities = ∅)
    (hindent : ∀ c ∈ cfg.customElementIndent.toList, isSpace c = true) {p : Dialect → Node → Bool}
    (hreadable : ∀ dialect node, p dialect node = true → node.isReadable cfg dialect = true)
    {a b : Node} (ha : a.isRootOver p = true) (hb : b.isRootOver p = true)
    (h : cfg.render a = cfg.render b) : a = b := by
  have stand : ∀ nodes, (Node.root nodes).isRootOver p = true →
      cfg.StandLast .html [] none nodes 0 nodes [] := by
    intro nodes hnodes
    have readable := Node.everywhereList_mono hreadable .html nodes hnodes
    exact ⟨by simp, List.drop_zero, readable, by simp, .nothing⟩
  cases a with
  | root nodes =>
      cases b with
      | root nodes' =>
          rw [render_eq_markup, render_eq_markup, markup_root, markup_root] at h
          obtain ⟨hsame, -⟩ :=
            tells hent hindent nodes (stand nodes ha) (stand nodes' hb) (by rw [h])
          rw [hsame]
      | _ => cases hb
  | _ => cases ha

/-- Rendering loses nothing when no tag is left out: normal trees with the same markup are
equal. -/
theorem eq_of_render_eq_of_isNormal (hent : cfg.entities = ∅)
    (hindent : ∀ c ∈ cfg.customElementIndent.toList, isSpace c = true)
    (hkeeps : cfg.omitOptionalTags = false) {a b : Node} (ha : a.isNormal cfg = true)
    (hb : b.isNormal cfg = true) (h : cfg.render a = cfg.render b) : a = b := by
  apply eq_of_render_eq hent hindent _ ha hb h
  intro dialect node hsound
  simp [Node.isReadable, hsound, omits, hkeeps]

theorem eq_of_render_eq_of_isNormal_paragraph :
    let cfg : Config :=
      { preferUnquoted := true, tightAttributes := true, quote := .single, closeSelfClosing := true }
    let a : Node := .root [.element (((⟨"p", ∅, []⟩ : Element).setAttr "lang" (.text "it's")
      |>.setAttr "id" (.text "a/")).pushText "1 < 2"), .comment "->", .element ⟨"br", ∅, []⟩]
    let attrs : Attributes := { entries := [("lang", .text "it's"), ("id", .text "a/")] }
    let b : Node :=
      .root [.element ⟨"p", attrs, [.text "1 < 2"]⟩, .comment "->", .element ⟨"br", ∅, []⟩]
    cfg.render b = "<p lang='it&#x27;s'id=a/>1 &#x3C; 2</p><!--->--><br />" ∧ a = b := by
  intro cfg a attrs b
  have rendered : ∀ c ∈ [a, b],
      cfg.render c = "<p lang='it&#x27;s'id=a/>1 &#x3C; 2</p><!--->--><br />" := by
    intro c hc
    rw [render_eq_markup]
    revert c
    decide +kernel
  have same : cfg.render a = cfg.render b := by
    rw [rendered a (by simp), rendered b (by simp)]
  have normal : a.isNormal cfg = true ∧ b.isNormal cfg = true := by decide +kernel
  refine ⟨rendered b (by simp), ?_⟩
  exact eq_of_render_eq_of_isNormal rfl (List.all_eq_true.1 (by decide)) rfl normal.1 normal.2 same

/-- Tags that are left out can be restored: conforming trees with the same markup are equal under
every configuration, whether end tags are left out or not. -/
theorem eq_of_render_eq_of_isConforming (hent : cfg.entities = ∅)
    (hindent : ∀ c ∈ cfg.customElementIndent.toList, isSpace c = true)
    {a b : Node} (ha : a.isConforming cfg = true) (hb : b.isConforming cfg = true)
    (h : cfg.render a = cfg.render b) : a = b := by
  apply eq_of_render_eq hent hindent _ ha hb h
  intro dialect node hboth
  rw [Bool.and_eq_true] at hboth
  simp [Node.isReadable, hboth]

theorem eq_of_render_eq_of_isConforming_table :
    let cfg : Config := { omitOptionalTags := true }
    let cell : Element := ⟨"td", ∅, [.element ⟨"p", ∅, [.text "a"]⟩]⟩
    let a : Node := .root [.element ((⟨"table", ∅, []⟩ : Element).pushChild
      (.element ⟨"tr", ∅, [.element cell, .element ⟨"th", ∅, []⟩]⟩))]
    let b : Node := .root [.element ⟨"table", ∅,
      [.element ⟨"tr", ∅, [.element cell, .element ⟨"th", ∅, []⟩]⟩]⟩]
    cfg.render b = "<table><tr><td><p>a<th></table>" ∧ a = b := by
  intro cfg cell a b
  have rendered : ∀ c ∈ [a, b], cfg.render c = "<table><tr><td><p>a<th></table>" := by
    intro c hc
    rw [render_eq_markup]
    revert c
    decide +kernel
  have same : cfg.render a = cfg.render b := by
    rw [rendered a (by simp), rendered b (by simp)]
  have conforming : a.isConforming cfg = true ∧ b.isConforming cfg = true := by decide +kernel
  refine ⟨rendered b (by simp), ?_⟩
  exact eq_of_render_eq_of_isConforming rfl (List.all_eq_true.1 (by decide)) conforming.1
    conforming.2 same

/-- Items within items, which conforming trees do not hold, read like items in a row. -/
example :
    let cfg : Config := { omitOptionalTags := true }
    let inner : Node := .element ⟨"li", ∅, [.text "b"]⟩
    cfg.markup .html .detached (.root [.element ⟨"li", ∅, [.text "a"]⟩, inner]) =
      cfg.markup .html .detached (.root [.element ⟨"li", ∅, [.text "a", inner]⟩]) := by
  decide +kernel

end Config

end HtmlPrinter
