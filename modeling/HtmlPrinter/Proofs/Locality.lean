import HtmlPrinter.Proofs.Looks
import HtmlPrinter.Proofs.TableParts

/-!
# How far the rules look

An end tag depends on what stands behind the element, and a start tag on the children and on what
stands in front. A rule for start tags that looks back may ask for the end tag of an earlier
sibling, whose rule looks ahead again. That look ends at the element it came from at the latest
(`EndRule.holds_congr_upTo`), so what is behind the element never comes into it: whether a sibling
is still open is `leavesOpen`, a function of the name of the element and of what is in front.
-/

namespace HtmlPrinter

/-- Says that an element stands at a place. -/
def Place.Holds (place : Place) (e : Element) : Prop :=
  place.siblings[place.index]? = some (.element e)

namespace Place.Holds

variable {place : Place} {e : Element}

private theorem length_preceding (h : place.Holds e) : place.preceding.length = place.index := by
  have bound : place.index < place.siblings.length := (List.getElem?_eq_some_iff.1 h).1
  rw [preceding, if_pos (Nat.le_of_lt bound), List.length_take]
  omega

private theorem siblings_eq (h : place.Holds e) :
    place.siblings = place.preceding ++ .element e :: place.following := by
  obtain ⟨bound, found⟩ := List.getElem?_eq_some_iff.1 h
  rw [preceding, if_pos (Nat.le_of_lt bound), following, ← found,
    ← List.drop_eq_getElem_cons bound, List.take_append_drop]

end Place.Holds

namespace Node

/-- Gives the last node that is not blank, with the blank text behind it. -/
def lastSolid? : List Node → Option (Node × List Node)
  | [] => none
  | node :: rest => (lastSolid? rest).or (if node.isBlank then none else some (node, rest))

variable {nodes : List Node} {node : Node}

private theorem lastSolid?_eq_none_iff :
    lastSolid? nodes = none ↔ ∀ node ∈ nodes, node.isBlank = true := by
  induction nodes with
  | nil => simp [lastSolid?]
  | cons node rest ih =>
      rw [List.forall_mem_cons, ← ih, lastSolid?]
      cases hrest : lastSolid? rest with
      | some found => simp
      | none => simp

theorem exists_append_of_lastSolid? {blanks : List Node}
    (h : lastSolid? nodes = some (node, blanks)) :
    node.isBlank = false ∧ (∀ blank ∈ blanks, blank.isBlank = true) ∧
      ∃ earlier, nodes = earlier ++ node :: blanks := by
  induction nodes with
  | nil => cases h
  | cons first rest ih =>
      rw [lastSolid?] at h
      cases hrest : lastSolid? rest with
      | some found =>
          rw [hrest, Option.some_or] at h
          obtain ⟨hsolid, hblank, earlier, rfl⟩ := ih (hrest.trans h)
          exact ⟨hsolid, hblank, first :: earlier, rfl⟩
      | none =>
          rw [hrest, Option.none_or] at h
          split at h
          · cases h
          · next hfirst =>
              cases h
              exact ⟨by simpa using hfirst, lastSolid?_eq_none_iff.1 hrest, [], rfl⟩

end Node

private theorem Neighbours.of_append (front back : List Node) (left right : Node)
    {blanks : List Node} (hblank : ∀ node ∈ blanks, node.isBlank = true) :
    Neighbours (front ++ left :: (blanks ++ right :: back)) front.length
      (front.length + 1 + blanks.length) left right := by
  have behind : ∀ k, (front ++ left :: (blanks ++ right :: back))[front.length + 1 + k]? =
      (blanks ++ right :: back)[k]? := by
    intro k
    rw [List.getElem?_append_right (by omega)]
    have offset : front.length + 1 + k - front.length = k + 1 := by omega
    rw [offset, List.getElem?_cons_succ]
  refine ⟨by omega, by simp, by rw [behind]; simp, ?_⟩
  intro k node hleft hright hk
  obtain ⟨d, rfl⟩ : ∃ d, k = front.length + 1 + d := ⟨k - (front.length + 1), by omega⟩
  rw [behind, List.getElem?_append_left (by omega)] at hk
  exact hblank node (List.mem_of_getElem? hk)

/-- A rule for end tags that meets an element looks no further: neither what is behind it nor the
parent counts, and of the element only the name does. -/
theorem EndRule.holds_congr_upTo {p q : Place} {e f : Element} {blanks back back' : List Node}
    (hblank : ∀ node ∈ blanks, node.isBlank = true) (htag : e.tag = f.tag)
    (hp : p.following = blanks ++ .element e :: back)
    (hq : q.following = blanks ++ .element f :: back') (rule : EndRule) :
    rule.holds p = rule.holds q := by
  have hidden : blanks.find? (!·.isBlank) = none := by
    simpa using hblank
  have solid : ∀ (g : Element) (rest : List Node),
      (blanks ++ .element g :: rest).find? (!·.isBlank) = some (.element g) := by
    intro g rest
    rw [List.find?_append, hidden, Option.none_or]
    rfl
  have named : ∀ tags, (Node.element e).isOneOf tags = (Node.element f).isOneOf tags := by
    intro tags
    rw [Node.isOneOf, Node.isOneOf, htag]
  cases rule with
  | boundary =>
      rw [holds, holds, Place.next?, Place.next?, hp, hq]
      cases blanks with
      | nil => rfl
      | cons blank rest => rfl
  | _ => simp only [holds, Place.nextSolid?, hp, hq, solid, Option.all_some, Option.any_some,
      Option.isNone_some, named]

/-- Places an element in front of some blank text and of an element with a given name. -/
def Place.upTo (tag : String) (e : Element) (blanks : List Node) : Place :=
  ⟨none, .element e :: (blanks ++ [.element { tag }]), 0⟩

@[simp] theorem Place.following_upTo (tag : String) (e : Element) (blanks : List Node) :
    (upTo tag e blanks).following = blanks ++ [.element { tag }] := rfl

/-- Decides whether what is last in front of an element, blank text aside, is one of the given
elements and still open there: its end tag is implied in front of the element. -/
def leavesOpen (tags : List String) (tag : String) (front : List Node) : Bool :=
  match Node.lastSolid? front with
  | some (.element previous, blanks) =>
      nameIn previous.tag tags && previous.endTagImplied (.upTo tag previous blanks)
  | _ => false

namespace Place.Holds

variable {place : Place} {e : Element}

/-- What is behind the element, and what is in it, does not count for what is open in front. -/
theorem afterOpen (h : place.Holds e) (tags : List String) :
    place.afterOpen tags = leavesOpen tags e.tag place.preceding := by
  have siblings := h.siblings_eq
  have index := h.length_preceding
  rw [leavesOpen]
  cases hlast : Node.lastSolid? place.preceding with
  | none =>
      have blank := Node.lastSolid?_eq_none_iff.1 hlast
      have nothing : place.previousSolid? = none := by
        rw [previousSolid?, List.find?_eq_none]
        intro entry hentry
        have member := List.fst_mem_of_mem_zipIdx (List.mem_reverse.1 hentry)
        simp [blank entry.1 member]
      rw [Place.afterOpen, nothing]
  | some found =>
      obtain ⟨previous, blanks⟩ := found
      obtain ⟨hsolid, hblank, earlier, hfront⟩ := Node.exists_append_of_lastSolid? hlast
      rw [hfront] at siblings index
      have length : (earlier ++ previous :: blanks).length =
          earlier.length + 1 + blanks.length := by
        rw [List.length_append, List.length_cons]
        omega
      have neighbours : Neighbours place.siblings earlier.length place.index previous
          (.element e) := by
        rw [siblings, ← index, length, List.append_assoc, List.cons_append]
        exact Neighbours.of_append earlier place.following previous (.element e) hblank
      have found : place.previousSolid? = some (previous, earlier.length) :=
        neighbours.previousSolid? hsolid place.parent
      rw [Place.afterOpen, found]
      cases previous with
      | element a =>
          have behind : (place.atIndex earlier.length).following =
              blanks ++ .element e :: place.following := by
            apply following_of_drop
            rw [siblings, List.append_assoc, List.drop_left, List.cons_append]
          have ends : a.endTagImplied (place.atIndex earlier.length) =
              a.endTagImplied (.upTo e.tag a blanks) := by
            have name : e.tag = ({ tag := e.tag } : Element).tag := rfl
            rw [Element.endTagImplied, Element.endTagImplied]
            congr 1
            funext rule
            exact rule.holds_congr_upTo hblank name behind rfl
          simp only [ends]
      | _ => rfl

end Place.Holds

/-- A start tag is decided by the name and the children of an element and by what is in front of
it, an end tag by the name, the parent and what is behind. -/
theorem impliedTags_local {e f : Element} {p q : Place}
    (htag : e.tag = f.tag) :
    (p.Holds e → q.Holds f → e.children = f.children → p.preceding = q.preceding →
      e.startTagImplied p = f.startTagImplied q) ∧
    (p.parent = q.parent → p.following = q.following →
      e.endTagImplied p = f.endTagImplied q) := by
  constructor
  · intro hp hq hchildren hfront
    apply Element.startTagImplied_congr_look
    · rw [htag]
    · rw [hchildren]
    · intro tags
      rw [hp.afterOpen, hq.afterOpen, htag, hfront]
  · intro hparent hback
    rw [Element.endTagImplied, Element.endTagImplied, htag]
    congr 1
    funext rule
    exact rule.holds_congr hparent hback

/-- Sections of a table, the second with another class and other parts of the table behind it. -/
theorem impliedTags_local_section :
    let row : Node := .element ⟨"tr", ∅, []⟩
    let e : Element := ⟨"tbody", ∅, [row]⟩
    let f : Element := e.setAttr "class" (.text "even")
    let foot : Node := .element ⟨"tfoot", ∅, []⟩
    let p : Place := ⟨some "table", [.element e, .text "\n", .element e, foot], 2⟩
    let q : Place := ⟨none, [.element e, .text "\n", .element f, .comment "c"], 2⟩
    let r : Place := ⟨some "table", [.element f, foot], 0⟩
    p.Holds e ∧ q.Holds f ∧ p.preceding = q.preceding ∧
      e.startTagImplied p = f.startTagImplied q ∧
      p.parent = r.parent ∧ p.following = r.following ∧
      e.endTagImplied p = f.endTagImplied r := by
  intro row e f foot p q r
  have sameTag : e.tag = f.tag := rfl
  have starts : e.startTagImplied p = f.startTagImplied q :=
    (impliedTags_local sameTag).1 rfl rfl rfl rfl
  have ends : e.endTagImplied p = f.endTagImplied r :=
    (impliedTags_local sameTag).2 rfl rfl
  exact ⟨rfl, rfl, rfl, starts, rfl, rfl, ends⟩

end HtmlPrinter
