import HtmlPrinter.Proofs.SiblingMarkup

/-!
# Parts of a table stay apart

Two sections of a table, or two groups of columns, would run together if neither the end tag of the
first nor the start tag of the second were written. The end tag is decided by looking ahead and the
start tag by looking back, and blank text between the parts hides from one of them only. Over blank
text both still see each other, so a part without a start tag stands behind one with an end tag;
`keepsEndTag_of_omitsStartTag` says so.
-/

namespace HtmlPrinter

/-- Says that two siblings have only blank text between them. -/
structure Neighbours (siblings : List Node) (i j : Nat) (left right : Node) : Prop where
  lt : i < j
  atLeft : siblings[i]? = some left
  atRight : siblings[j]? = some right
  blank : ∀ k node, i < k → k < j → siblings[k]? = some node → node.isBlank = true

namespace Neighbours

variable {siblings : List Node} {i j : Nat} {left right : Node}

private theorem exists_append (h : Neighbours siblings i j left right) :
    ∃ front blanks back, siblings = front ++ left :: (blanks ++ right :: back) ∧
      front.length = i ∧ i + 1 + blanks.length = j ∧ ∀ node ∈ blanks, node.isBlank = true := by
  obtain ⟨hi, hleft⟩ := List.getElem?_eq_some_iff.1 h.atLeft
  obtain ⟨hj, hright⟩ := List.getElem?_eq_some_iff.1 h.atRight
  have hlt := h.lt
  have between : siblings.drop (i + 1) =
      (siblings.drop (i + 1)).take (j - (i + 1)) ++ right :: siblings.drop (j + 1) := by
    have rest : (siblings.drop (i + 1)).drop (j - (i + 1)) = right :: siblings.drop (j + 1) := by
      rw [List.drop_drop, Nat.add_sub_cancel' hlt, List.drop_eq_getElem_cons hj, hright]
    rw [← rest, List.take_append_drop]
  refine ⟨siblings.take i, (siblings.drop (i + 1)).take (j - (i + 1)), siblings.drop (j + 1),
    ?_, ?_, ?_, ?_⟩
  · rw [← between, ← hleft, ← List.drop_eq_getElem_cons hi, List.take_append_drop]
  · rw [List.length_take]
    omega
  · rw [List.length_take, List.length_drop]
    omega
  · intro node hnode
    obtain ⟨k, hk⟩ := List.mem_iff_getElem?.1 hnode
    obtain ⟨hbound, -⟩ := List.getElem?_eq_some_iff.1 hk
    rw [List.length_take, List.length_drop] at hbound
    rw [List.getElem?_take_of_lt (by omega), List.getElem?_drop] at hk
    exact h.blank (i + 1 + k) node (by omega) (by omega) hk

theorem nextSolid? (h : Neighbours siblings i j left right) (hright : right.isBlank = false)
    (parent : Option String) : (Place.mk parent siblings i).nextSolid? = some right := by
  obtain ⟨front, blanks, back, rfl, rfl, -, hblank⟩ := h.exists_append
  have hidden : blanks.find? (!·.isBlank) = none := by
    simpa using hblank
  have behind :
      (Place.mk parent (front ++ left :: (blanks ++ right :: back)) front.length).following =
        blanks ++ right :: back := by
    apply Place.following_of_drop
    rw [List.drop_left]
  rw [Place.nextSolid?, behind, List.find?_append, hidden, Option.none_or,
    List.find?_cons_of_pos (by simp [hright])]

theorem previousSolid? (h : Neighbours siblings i j left right) (hleft : left.isBlank = false)
    (parent : Option String) :
    (Place.mk parent siblings j).previousSolid? = some (left, i) := by
  obtain ⟨front, blanks, back, rfl, rfl, rfl, hblank⟩ := h.exists_append
  have ahead : (Place.mk parent (front ++ left :: (blanks ++ right :: back))
      (front.length + 1 + blanks.length)).preceding = front ++ left :: blanks := by
    have bounded : front.length + 1 + blanks.length ≤
        (front ++ left :: (blanks ++ right :: back)).length := by
      simp only [List.length_append, List.length_cons]
      omega
    rw [Place.preceding, if_pos bounded]
    have split : front ++ left :: (blanks ++ right :: back) =
        (front ++ left :: blanks) ++ right :: back := by simp
    rw [split]
    exact List.take_left' (by simp only [List.length_append, List.length_cons]; omega)
  -- looking back one meets the blank text first, and then the left one of the two
  have hidden : (blanks.zipIdx (front.length + 1)).reverse.find? (!·.1.isBlank) = none := by
    rw [List.find?_eq_none]
    intro entry hentry
    have member := List.fst_mem_of_mem_zipIdx (List.mem_reverse.1 hentry)
    simp [hblank entry.1 member]
  rw [Place.previousSolid?, ahead, List.zipIdx_append, List.zipIdx_cons, List.reverse_append,
    List.reverse_cons, List.append_assoc, List.find?_append, Nat.zero_add, hidden, Option.none_or,
    List.singleton_append, List.find?_cons_of_pos (by simp [hleft])]

variable {parent : Option String} {a b : Element}

private theorem endTagImplied_eq_false (h : Neighbours siblings i j (.element a) (.element b))
    {child : String} {skipBlank : Bool} {after : List String}
    (hrule : startRule? b.tag = some (.tablePart child skipBlank after))
    (hafter : nameIn a.tag after = true) (hstart : b.startTagImplied ⟨parent, siblings, j⟩ = true) :
    a.endTagImplied ⟨parent, siblings, i⟩ = false := by
  rw [Element.startTagImplied, hrule, Option.any_some, StartRule.holds, Bool.and_eq_true,
    Bool.not_eq_true', Place.afterOpen, h.previousSolid? rfl] at hstart
  simpa [hafter, Place.atIndex] using hstart.1

theorem endTagImplied_eq_false_of_last (h : Neighbours siblings i j (.element a) (.element b))
    (hrule : endRule? a.tag = some .last) : a.endTagImplied ⟨parent, siblings, i⟩ = false := by
  rw [Element.endTagImplied, hrule, Option.any_some, EndRule.holds, h.nextSolid? rfl]
  rfl

end Neighbours

/-- Decides whether a part of a table would go on into the next one without a tag between them. -/
def runsInto (left right : String) : Bool :=
  (nameIn left ["thead", "tbody", "tfoot"] && sameName right "tbody") ||
    (sameName left "colgroup" && sameName right "colgroup")

theorem rules_of_runsInto {left right : String} (h : runsInto left right = true) :
    (∃ child skipBlank after, startRule? right = some (.tablePart child skipBlank after) ∧
      nameIn left after = true) ∨ endRule? left = some .last := by
  simp only [runsInto, nameIn, List.any_cons, List.any_nil, Bool.or_false, Bool.or_eq_true,
    Bool.and_eq_true] at h
  rcases h with ⟨hleft, hright⟩ | ⟨hleft, hright⟩
  · rw [startRule?_congr hright]
    rcases hleft with hleft | hleft | hleft
    · exact .inl ⟨"tr", true, ["thead", "tbody"], by decide, by simp [nameIn, hleft]⟩
    · exact .inl ⟨"tr", true, ["thead", "tbody"], by decide, by simp [nameIn, hleft]⟩
    · exact .inr ((endRule?_congr hleft).trans (by decide))
  · rw [startRule?_congr hright]
    exact .inl ⟨"col", false, ["colgroup"], by decide, by simp [nameIn, hleft]⟩

private theorem enter_of_runsInto {left right : String} (h : runsInto left right = true)
    (dialect : Dialect) : dialect.enter left = dialect := by
  have table : ["thead", "tbody", "tfoot", "colgroup"].all (!sameName · "svg") = true := by decide
  have listed : ∃ name ∈ ["thead", "tbody", "tfoot", "colgroup"], sameName left name = true := by
    simp only [runsInto, nameIn, List.any_cons, List.any_nil, Bool.or_false, Bool.or_eq_true,
      Bool.and_eq_true] at h
    rcases h with ⟨hleft | hleft | hleft, -⟩ | ⟨hleft, -⟩ <;> exact ⟨_, by simp, hleft⟩
  obtain ⟨name, hname, hsame⟩ := listed
  have apart : sameName left "svg" = false := by
    rw [sameName_congr hsame]
    simpa using List.all_eq_true.1 table name hname
  simp [Dialect.enter, apart]

namespace Config

variable {cfg : Config} {parent : Option String} {siblings : List Node} {i j : Nat} {a b : Element}

/-- Parts of a table with only blank text between them are kept apart by a tag: where the second has
no start tag the first has its end tag, and unless it is void that tag is written. -/
theorem keepsEndTag_of_omitsStartTag (h : Neighbours siblings i j (.element a) (.element b))
    (hruns : runsInto a.tag b.tag = true)
    (homitted : cfg.omitsStartTag .html b ⟨parent, siblings, j⟩ = true) :
    cfg.omitsEndTag .html a ⟨parent, siblings, i⟩ = false ∧
      (cfg.isVoid a.tag = false → cfg.markup .html ⟨parent, siblings, i⟩ (.element a) =
        cfg.startText .html a ⟨parent, siblings, i⟩ ++
          (cfg.markupFrom .html (some a.tag) a.children 0 a.children ++ endTag a.tag)) := by
  have kept : cfg.omitsEndTag .html a ⟨parent, siblings, i⟩ = false := by
    rw [omitsStartTag, Bool.and_eq_true] at homitted
    have needed : a.endTagImplied ⟨parent, siblings, i⟩ = false := by
      rcases rules_of_runsInto hruns with ⟨child, skipBlank, after, hrule, hafter⟩ | hlast
      · exact h.endTagImplied_eq_false hrule hafter homitted.2
      · exact h.endTagImplied_eq_false_of_last hlast
    rw [omitsEndTag, needed, Bool.and_false]
  refine ⟨kept, fun hvoid => ?_⟩
  have content : ¬ cfg.isLeaf .html a = true := by
    simp [isLeaf, hvoid]
  rw [markup_element_eq, enter_of_runsInto hruns, contentText, if_neg content, endText, kept]
  rfl

theorem keepsEndTag_of_omitsStartTag_colgroup :
    let cfg : Config := { omitOptionalTags := true }
    let group : Element := ⟨"colgroup", ∅, [.element ⟨"col", ∅, []⟩]⟩
    let siblings : List Node := [.element group, .text "\n", .text "", .element group]
    cfg.omitsStartTag .html group ⟨some "table", siblings, 3⟩ = true ∧
      cfg.omitsEndTag .html group ⟨some "table", siblings, 0⟩ = false ∧
      cfg.markup .html ⟨some "table", siblings, 0⟩ (.element group) =
        cfg.startText .html group ⟨some "table", siblings, 0⟩ ++
          (cfg.markupFrom .html (some "colgroup") group.children 0 group.children ++
            endTag "colgroup") := by
  intro cfg group siblings
  have omitted : cfg.omitsStartTag .html group ⟨some "table", siblings, 3⟩ = true := by decide
  have blanks : ∀ k node, 0 < k → k < 3 → siblings[k]? = some node → node.isBlank = true := by
    intro k node hlow hhigh hnode
    have middle : k = 1 ∨ k = 2 := by omega
    rcases middle with rfl | rfl <;> cases hnode <;> decide
  have beside : Neighbours siblings 0 3 (.element group) (.element group) :=
    ⟨by decide, rfl, rfl, blanks⟩
  obtain ⟨kept, written⟩ := keepsEndTag_of_omitsStartTag beside (by decide) omitted
  exact ⟨omitted, kept, written (by decide)⟩

end Config

end HtmlPrinter
