import HtmlPrinter.Omission.StartTag

/-!
# Comments at the start of an element

A comment in front of everything else in an element is read as a part of what is around it when
the start tag is left out. Each rule for implied start tags looks at the children in its own way:
blank text aside, at the very first child, or at all of them without their order. All but one of
them keep the tag in front of such a comment; `startTagImplied_and_leadsWithComment_iff` says when
the rule for metadata does not.
-/

namespace HtmlPrinter

/-- Decides whether a comment comes first in an element, blank text aside. -/
def Element.leadsWithComment (e : Element) : Bool := e.firstSolid?.any Node.isComment

namespace Node

private theorem isBlank_eq_false_of_isFirm {node : Node}
    (hne : ∀ content, node = .text content → content ≠ "") (hfirm : node.isFirm = true) :
    node.isBlank = false := by
  cases node with
  | text content =>
      cases hchars : content.toList with
      | nil => exact absurd (String.toList_eq_nil_iff.1 hchars) (hne content rfl)
      | cons c cs =>
          have solid : isSpace c = false := by
            simpa [isFirm, isComment, startsBlank, hchars] using hfirm
          simp [isBlank, hchars, solid]
  | _ => rfl

private theorem solid_of_isElementNamed {tag : String} {node : Node}
    (h : node.isElementNamed tag = true) : node.isBlank = false ∧ node.isComment = false := by
  cases node with
  | element e => exact ⟨rfl, rfl⟩
  | _ => cases h

end Node

variable {e : Element} {place : Place}

private theorem Element.firstSolid?_of_firstChild? {node : Node} (h : e.firstChild? = some node)
    (hsolid : node.isBlank = false) : e.firstSolid? = some node := by
  obtain ⟨rest, hchildren⟩ := List.head?_eq_some_iff.1 h
  rw [firstSolid?, hchildren, List.find?_cons_of_pos (by simp [hsolid])]

/-- Only the rule for metadata implies a start tag in front of a comment. -/
theorem StartRule.leadsWithComment_eq_false {rule : StartRule} (hrule : rule ≠ .metadata)
    (htext : ∀ content, Node.text content ∈ e.children → content ≠ "")
    (h : rule.holds e place = true) : e.leadsWithComment = false := by
  cases rule with
  | metadata => exact absurd rfl hrule
  | document =>
      rw [holds] at h
      cases hsolid : e.firstSolid? with
      | none => simp [Element.leadsWithComment, hsolid]
      | some first => simpa [Element.leadsWithComment, hsolid] using h
  | content =>
      rw [holds] at h
      cases hfirst : e.firstChild? with
      | none =>
          have childless : e.children = [] := List.head?_eq_none_iff.1 hfirst
          simp [Element.leadsWithComment, Element.firstSolid?, childless]
      | some first =>
          have firm : first.isFirm = true := by
            rw [hfirst, Option.all_some, Bool.and_eq_true] at h
            exact h.1
          have child : first ∈ e.children := List.mem_of_head? hfirst
          have solid : first.isBlank = false :=
            Node.isBlank_eq_false_of_isFirm (fun content hc => htext content (hc ▸ child)) firm
          rw [Node.isFirm, Bool.and_eq_true, Bool.not_eq_true'] at firm
          simp [Element.leadsWithComment, Element.firstSolid?_of_firstChild? hfirst solid, firm.1]
  | tablePart child skipBlank after =>
      have first : ∃ node, e.firstSolid? = some node ∧ node.isElementNamed child = true := by
        rw [holds, Bool.and_eq_true] at h
        obtain ⟨node, hnode, hnamed⟩ := (Option.any_eq_true _ _).1 h.2
        cases skipBlank with
        | true => exact ⟨node, hnode, hnamed⟩
        | false =>
            exact ⟨node, Element.firstSolid?_of_firstChild? hnode
              (Node.solid_of_isElementNamed hnamed).1, hnamed⟩
      obtain ⟨node, hnode, hnamed⟩ := first
      simp [Element.leadsWithComment, hnode, (Node.solid_of_isElementNamed hnamed).2]

private theorem sameName_head_of_startRule? {tag : String} (h : startRule? tag = some .metadata) :
    sameName tag "head" = true := by
  have table : ∀ entry ∈ startRules, entry.2 = .metadata → entry.1 = "head" := by decide
  obtain ⟨entry, found, hrule⟩ := Option.map_eq_some_iff.1 h
  have named : sameName tag entry.1 = true := by simpa using List.find?_some found
  rw [← table entry (List.mem_of_find?_eq_some found) hrule]
  exact named

/-- The start tag is implied in front of a leading comment exactly for a head with at most one
title and one base, at whatever place: its rule does not ask what comes first. -/
theorem startTagImplied_and_leadsWithComment_iff
    (htext : ∀ content, Node.text content ∈ e.children → content ≠ "") :
    e.startTagImplied place = true ∧ e.leadsWithComment = true ↔
      sameName e.tag "head" = true ∧ e.leadsWithComment = true ∧
        e.children.countP (Node.isElementNamed "title") ≤ 1 ∧
        e.children.countP (Node.isElementNamed "base") ≤ 1 := by
  constructor
  · rintro ⟨himplied, hleads⟩
    obtain ⟨rule, hrule, holds⟩ := (Option.any_eq_true _ _).1 himplied
    by_cases hmetadata : rule = .metadata
    · subst hmetadata
      simp only [StartRule.holds, Bool.and_eq_true, decide_eq_true_eq] at holds
      exact ⟨sameName_head_of_startRule? hrule, hleads, holds.1.2, holds.2⟩
    · rw [StartRule.leadsWithComment_eq_false hmetadata htext holds] at hleads
      cases hleads
  · rintro ⟨hhead, hleads, htitle, hbase⟩
    have rule : startRule? e.tag = some .metadata := by
      rw [startRule?_congr hhead]
      decide
    have children : e.children ≠ [] := by
      intro childless
      simp [Element.leadsWithComment, Element.firstSolid?, childless] at hleads
    refine ⟨?_, hleads⟩
    simp [Element.startTagImplied, rule, StartRule.holds, htitle, hbase, children]

/-- A head whose comment goes to the element around it. -/
theorem startTagImplied_and_leadsWithComment_iff_head :
    let head : Element := ⟨"HEAD", ∅, [.text "\n", .comment "c", .element ⟨"title", ∅, []⟩]⟩
    let place : Place := ⟨some "html", [.element head, .element ⟨"body", ∅, []⟩], 0⟩
    (∀ content, Node.text content ∈ head.children → content ≠ "") ∧
      head.startTagImplied place = true ∧ head.leadsWithComment = true := by
  intro head place
  have texts : ∀ content, Node.text content ∈ head.children → content ≠ "" := by
    intro content hcontent
    simp only [head, List.mem_cons, Node.text.injEq, reduceCtorEq, List.not_mem_nil, or_false]
      at hcontent
    subst hcontent
    decide
  exact ⟨texts, (startTagImplied_and_leadsWithComment_iff texts).2 (by decide)⟩

end HtmlPrinter
