import HtmlPrinter.Proofs.BlankSiblings

/-!
# Empty text

Empty text writes nothing, and a rule that passes over blank text passes over it too. The rules that
count blank text look at one node, whatever it is, and take empty text for something: it covers what
would keep a tag, or what would let it go. `EndRule.notices` and `StartRule.notices` say where that
happens, and `impliedTags_eq_iff` that empty text changes an answer there and nowhere else.
-/

namespace HtmlPrinter

namespace Node

/-- Says that a list comes from another one when empty text is put into it. -/
inductive Padded : List Node → List Node → Prop where
  | nil : Padded [] []
  | keep (node : Node) {as bs : List Node} (h : Padded as bs) : Padded (node :: as) (node :: bs)
  | pad {as bs : List Node} (h : Padded as bs) : Padded as (.text "" :: bs)

/-- Says that the first node of a list is of some kind, and that empty text is in its place in
another list. -/
def Covered (kind : Node → Bool) (as bs : List Node) : Prop :=
  as.head?.any kind = true ∧ bs.head? = some (.text "")

namespace Padded

variable {as bs : List Node} {kind : Node → Bool}

theorem refl (nodes : List Node) : Padded nodes nodes := by
  induction nodes with
  | nil => exact .nil
  | cons node rest ih => exact .keep node ih

private theorem append_right (h : Padded as bs) (rest : List Node) :
    Padded (as ++ rest) (bs ++ rest) := by
  induction h with
  | nil => exact refl rest
  | keep node _ ih => exact .keep node ih
  | pad _ ih => exact .pad ih

private theorem sameSolid (h : Padded as bs) : SameSolid as bs := by
  induction h with
  | nil => rfl
  | keep node _ ih =>
      rw [SameSolid, solid, solid, List.filter_cons, List.filter_cons, ← solid, ← solid, ih]
  | pad _ ih => exact ih

private theorem countP_eq (h : Padded as bs) (hkind : kind (.text "") = false) :
    as.countP kind = bs.countP kind := by
  induction h with
  | nil => rfl
  | keep node _ ih => rw [List.countP_cons, List.countP_cons, ih]
  | pad _ ih => rw [List.countP_cons_of_neg (by simp [hkind]), ih]

private theorem ne_nil (h : Padded as bs) (hne : as ≠ []) : bs ≠ [] := by
  cases h with
  | nil => exact hne
  | keep node _ => exact List.cons_ne_nil _ _
  | pad _ => exact List.cons_ne_nil _ _

theorem head? (h : Padded as bs) : bs.head? = as.head? ∨ bs.head? = some (.text "") := by
  cases h with
  | nil => exact .inl rfl
  | keep node _ => exact .inl rfl
  | pad _ => exact .inr rfl

private theorem any_head?_eq_iff (h : Padded as bs) (hkind : kind (.text "") = false) :
    as.head?.any kind = bs.head?.any kind ↔ ¬ Covered kind as bs := by
  rcases h.head? with same | empty
  · have apart : ¬ Covered kind as bs := by
      rintro ⟨hfirst, hempty⟩
      rw [← same, hempty, Option.any_some, hkind] at hfirst
      cases hfirst
    simp [same, apart]
  · simp [Covered, empty, hkind]

private theorem all_head?_eq_iff (h : Padded as bs) (hkind : kind (.text "") = true) :
    as.head?.all kind = bs.head?.all kind ↔ ¬ Covered (!kind ·) as bs := by
  have negated : ∀ node? : Option Node, node?.all kind = !node?.any (!kind ·) := by
    intro node?
    cases node? <;> simp
  rw [negated, negated, Bool.not_inj_iff, h.any_head?_eq_iff (by simp [hkind])]

private theorem covered_of_append {last : Node} (h : Padded as bs) (hlast : kind last = false)
    (hcovered : Covered kind (as ++ [last]) (bs ++ [last])) : Covered kind as bs := by
  obtain ⟨hfirst, hempty⟩ := hcovered
  cases as with
  | nil =>
      rw [List.nil_append, List.head?_cons, Option.any_some, hlast] at hfirst
      cases hfirst
  | cons a as =>
      cases bs with
      | nil => exact absurd rfl (h.ne_nil (List.cons_ne_nil a as))
      | cons b bs => exact ⟨hfirst, hempty⟩

/-- The last node that is not blank stays where it is, with empty text behind it. -/
theorem lastSolid? (h : Padded as bs) :
    (lastSolid? as = none ∧ lastSolid? bs = none) ∨
      ∃ node blanks blanks', Node.lastSolid? as = some (node, blanks) ∧
        Node.lastSolid? bs = some (node, blanks') ∧ Padded blanks blanks' := by
  induction h with
  | nil => exact .inl ⟨rfl, rfl⟩
  | @keep node as bs h ih =>
      rcases ih with ⟨hp, hq⟩ | ⟨last, blanks, blanks', hp, hq, hpad⟩
      · rw [Node.lastSolid?, Node.lastSolid?, hp, hq, Option.none_or, Option.none_or]
        cases node.isBlank with
        | true => exact .inl ⟨rfl, rfl⟩
        | false => exact .inr ⟨node, as, bs, rfl, rfl, h⟩
      · refine .inr ⟨last, blanks, blanks', ?_, ?_, hpad⟩
        · rw [Node.lastSolid?, hp, Option.some_or]
        · rw [Node.lastSolid?, hq, Option.some_or]
  | @pad as bs h ih =>
      have unchanged : Node.lastSolid? (.text "" :: bs) = Node.lastSolid? bs := by
        rw [Node.lastSolid?, isBlank_empty, if_pos rfl, Option.or_none]
      rw [unchanged]
      exact ih

end Padded

end Node

variable {e f : Element} {p q : Place}

/-- Says where a rule for end tags notices empty text that is put behind the element: a boundary
does in front of what would keep its end tag. -/
def EndRule.notices (p q : Place) : EndRule → Prop
  | boundary => Node.Covered (!·.isFirm) p.following q.following
  | _ => False

theorem EndRule.holds_eq_iff (hparent : p.parent = q.parent)
    (hback : Node.Padded p.following q.following) (rule : EndRule) :
    rule.holds p = rule.holds q ↔ ¬ rule.notices p q := by
  cases rule with
  | boundary => exact hback.all_head?_eq_iff rfl
  | _ =>
      simp only [notices, not_false_eq_true, iff_true]
      exact EndRule.holds_congr_solid (by simp) hparent hback.sameSolid

theorem Element.endTagImplied_eq_iff (htag : e.tag = f.tag) (hparent : p.parent = q.parent)
    (hback : Node.Padded p.following q.following) :
    e.endTagImplied p = f.endTagImplied q ↔ ∀ rule ∈ endRule? e.tag, ¬ rule.notices p q := by
  rw [endTagImplied, endTagImplied, ← htag]
  cases endRule? e.tag with
  | none => simp
  | some rule => simp [rule.holds_eq_iff hparent hback]

/-- Says that empty text covers the blank text behind an earlier sibling: one of the given elements
that is a boundary, and last in front of an element, blank text aside. -/
def Reopened (tags : List String) (front front' : List Node) : Prop :=
  ∃ (previous : Element) (blanks blanks' : List Node),
    Node.lastSolid? front = some (.element previous, blanks) ∧
    Node.lastSolid? front' = some (.element previous, blanks') ∧
    nameIn previous.tag tags = true ∧ endRule? previous.tag = some .boundary ∧
    Node.Covered (!·.isFirm) blanks blanks'

section

variable {tags : List String} {front front' : List Node}

theorem Reopened.leavesOpen (h : Reopened tags front front') (tag : String) :
    leavesOpen tags tag front = false ∧ leavesOpen tags tag front' = true := by
  obtain ⟨previous, blanks, blanks', hp, hq, hname, hrule, hfirst, hempty⟩ := h
  obtain ⟨blank, rest, rfl⟩ : ∃ blank rest, blanks = blank :: rest := by
    cases blanks with
    | nil => cases hfirst
    | cons blank rest => exact ⟨blank, rest, rfl⟩
  obtain ⟨rest', rfl⟩ := List.head?_eq_some_iff.1 hempty
  have loose : blank.isFirm = false := by simpa using hfirst
  have firm : (Node.text "").isFirm = true := rfl
  constructor
  · simp [HtmlPrinter.leavesOpen, hp, hname, Element.endTagImplied, hrule, EndRule.holds,
      Place.next?, loose]
  · simp [HtmlPrinter.leavesOpen, hq, hname, Element.endTagImplied, hrule, EndRule.holds,
      Place.next?, firm]

private theorem Element.endTagImplied_upTo {blanks blanks' : List Node}
    (h : Node.Padded blanks blanks') (tag : String) (e : Element) :
    e.endTagImplied (.upTo tag e blanks) = e.endTagImplied (.upTo tag e blanks') ∨
      (endRule? e.tag = some .boundary ∧ Node.Covered (!·.isFirm) blanks blanks') := by
  have sameTag : e.tag = e.tag := rfl
  have sameParent : (Place.upTo tag e blanks).parent = (Place.upTo tag e blanks').parent := rfl
  have behind : Node.Padded (Place.upTo tag e blanks).following
      (Place.upTo tag e blanks').following := h.append_right [.element { tag }]
  by_cases noticed : ∀ rule ∈ endRule? e.tag,
      ¬ rule.notices (.upTo tag e blanks) (.upTo tag e blanks')
  · left
    exact (Element.endTagImplied_eq_iff sameTag sameParent behind).2 noticed
  · right
    push Not at noticed
    obtain ⟨rule, hrule, hnotices⟩ := noticed
    cases rule with
    | boundary => exact ⟨hrule, h.covered_of_append rfl hnotices⟩
    | _ => exact hnotices.elim

private theorem leavesOpen_eq_or_reopened (h : Node.Padded front front') (tag : String) :
    leavesOpen tags tag front = leavesOpen tags tag front' ∨ Reopened tags front front' := by
  rcases h.lastSolid? with ⟨hp, hq⟩ | ⟨previous, blanks, blanks', hp, hq, hpad⟩
  · left
    rw [leavesOpen, leavesOpen, hp, hq]
  · cases previous with
    | element a =>
        by_cases hname : nameIn a.tag tags = true
        · rcases a.endTagImplied_upTo hpad tag with same | ⟨hrule, covered⟩
          · left
            rw [leavesOpen, leavesOpen, hp, hq]
            exact congrArg (nameIn a.tag tags && ·) same
          · right
            exact ⟨a, blanks, blanks', hp, hq, hname, hrule, covered⟩
        · left
          simp [leavesOpen, hp, hq, hname]
    | _ =>
        left
        rw [leavesOpen, leavesOpen, hp, hq]

end

/-- Says where a rule for start tags notices empty text that is put around and into the element:
where it is the only content of a head, covers the first child of a body or the first column of a
group, or opens the group in front. -/
def StartRule.notices (e f : Element) (p q : Place) : StartRule → Prop
  | document => False
  | metadata => e.children = [] ∧ f.children ≠ []
  | content => Node.Covered (fun node => !(node.isFirm && !node.isOneOf metadataElements))
      e.children f.children
  | tablePart child skipBlank after =>
      (skipBlank = false ∧ p.afterOpen after = false ∧
        Node.Covered (Node.isElementNamed child) e.children f.children) ∨
      ((if skipBlank then e.firstSolid? else e.firstChild?).any (Node.isElementNamed child) ∧
        Reopened after p.preceding q.preceding)

section

variable (h : Place.Correspond Node.Padded e f p q) (hchildren : Node.Padded e.children f.children)

include hchildren in
private theorem StartRule.metadata_holds_eq_iff :
    metadata.holds e p = metadata.holds f q ↔ ¬ metadata.notices e f p q := by
  have counts : ∀ tag, e.children.countP (Node.isElementNamed tag) =
      f.children.countP (Node.isElementNamed tag) := fun tag => hchildren.countP_eq rfl
  rw [holds, holds, notices, ← counts, ← counts]
  by_cases hnone : e.children = []
  · simp [hnone]
  · have hsome : f.children ≠ [] := hchildren.ne_nil hnone
    have full : e.children.isEmpty = f.children.isEmpty := by
      rw [List.isEmpty_eq_false_iff.2 hnone, List.isEmpty_eq_false_iff.2 hsome]
    simp [full, hnone]

include h in
private theorem Place.afterOpen_cases (tags : List String) :
    (p.afterOpen tags = q.afterOpen tags ∧ ¬ Reopened tags p.preceding q.preceding) ∨
      (p.afterOpen tags = false ∧ q.afterOpen tags = true ∧
        Reopened tags p.preceding q.preceding) := by
  rw [h.left.afterOpen, h.right.afterOpen, ← h.tag]
  by_cases again : Reopened tags p.preceding q.preceding
  · have opened := again.leavesOpen e.tag
    exact .inr ⟨opened.1, opened.2, again⟩
  · have same : leavesOpen tags e.tag p.preceding = leavesOpen tags e.tag q.preceding :=
      (leavesOpen_eq_or_reopened h.front e.tag).resolve_right again
    exact .inl ⟨same, again⟩

include h hchildren in
private theorem StartRule.tablePart_holds_eq_iff (child : String) (skipBlank : Bool)
    (after : List String) :
    (tablePart child skipBlank after).holds e p = (tablePart child skipBlank after).holds f q ↔
      ¬ (tablePart child skipBlank after).notices e f p q := by
  have opened := Place.afterOpen_cases h after
  rw [holds, holds, notices]
  cases skipBlank with
  | true =>
      have solid : e.firstSolid? = f.firstSolid? := hchildren.sameSolid.find?
      simp only [if_true, Bool.true_eq_false, false_and, false_or, ← solid]
      rcases opened with ⟨same, apart⟩ | ⟨closed, reopened, again⟩
      · simp [same, apart]
      · simp [closed, reopened, again]
  | false =>
      have first : e.firstChild?.any (Node.isElementNamed child) =
          f.firstChild?.any (Node.isElementNamed child) ↔
          ¬ Node.Covered (Node.isElementNamed child) e.children f.children :=
        hchildren.any_head?_eq_iff rfl
      simp only [Bool.false_eq_true, if_false, true_and]
      by_cases covered : Node.Covered (Node.isElementNamed child) e.children f.children
      · have before : e.firstChild?.any (Node.isElementNamed child) = true := covered.1
        have behind : f.firstChild?.any (Node.isElementNamed child) = false := by
          rw [Element.firstChild?, covered.2]
          rfl
        rcases opened with ⟨same, apart⟩ | ⟨closed, reopened, again⟩
        · simp [before, behind, same, apart, covered]
        · simp [before, behind, closed, reopened, again]
      · rcases opened with ⟨same, apart⟩ | ⟨closed, reopened, again⟩
        · simp [first.2 covered, same, apart, covered]
        · simp [closed, reopened, again, covered]

include h hchildren in
theorem StartRule.holds_eq_iff (rule : StartRule) :
    rule.holds e p = rule.holds f q ↔ ¬ rule.notices e f p q := by
  cases rule with
  | document =>
      have solid : e.firstSolid? = f.firstSolid? := hchildren.sameSolid.find?
      simp [holds, notices, solid]
  | metadata => exact StartRule.metadata_holds_eq_iff hchildren
  | content => exact hchildren.all_head?_eq_iff rfl
  | tablePart child skipBlank after =>
      exact StartRule.tablePart_holds_eq_iff h hchildren child skipBlank after

include h hchildren in
theorem Element.startTagImplied_eq_iff :
    e.startTagImplied p = f.startTagImplied q ↔
      ∀ rule ∈ startRule? e.tag, ¬ rule.notices e f p q := by
  rw [startTagImplied, startTagImplied, ← h.tag]
  cases startRule? e.tag with
  | none => simp
  | some rule => simp [rule.holds_eq_iff h hchildren]

end

/-- Empty text that is put among the siblings of an element and into it changes nothing for its
tags, except where the rule for the tag notices it. -/
theorem impliedTags_eq_iff (h : Place.Correspond Node.Padded e f p q)
    (hchildren : Node.Padded e.children f.children) :
    (e.endTagImplied p = f.endTagImplied q ↔ ∀ rule ∈ endRule? e.tag, ¬ rule.notices p q) ∧
    (e.startTagImplied p = f.startTagImplied q ↔
      ∀ rule ∈ startRule? e.tag, ¬ rule.notices e f p q) := by
  constructor
  · exact Element.endTagImplied_eq_iff h.tag h.parent h.back
  · exact Element.startTagImplied_eq_iff h hchildren

/-- Behind a caption, empty text covers a comment. -/
theorem impliedTags_eq_iff_caption :
    let e : Element := ⟨"caption", ∅, [.text "T"]⟩
    let f : Element := ⟨"caption", ∅, [.text "T", .text ""]⟩
    let p : Place := ⟨some "table", [.element e, .comment "c"], 0⟩
    let q : Place := ⟨some "table", [.text "", .element f, .text "", .comment "c"], 1⟩
    Place.Correspond Node.Padded e f p q ∧ Node.Padded e.children f.children ∧
      e.endTagImplied p ≠ f.endTagImplied q ∧ e.startTagImplied p = f.startTagImplied q := by
  intro e f p q
  have places : Place.Correspond Node.Padded e f p q :=
    ⟨rfl, rfl, rfl, rfl, .pad .nil, .pad (.keep _ .nil)⟩
  have children : Node.Padded e.children f.children := .keep _ (.pad .nil)
  have implied := impliedTags_eq_iff places children
  have unruled : startRule? e.tag = none := by decide
  refine ⟨places, children, ?_, implied.2.2 ?_⟩
  · intro same
    exact implied.1.1 same .boundary (by decide) ⟨rfl, rfl⟩
  · intro rule hrule
    rw [unruled] at hrule
    cases hrule

end HtmlPrinter
