import HtmlPrinter.Proofs.Boundaries
import HtmlPrinter.Proofs.Locality

/-!
# Blank text between elements

Text of spaces only may be put between elements and taken away again. Boundaries do see it, since
it would end up on their other side, but no other end tag depends on it, and neither does the start
tag of a document or of a section of a table: the rules for these see the `solid` nodes only.
Looking back from a section is looking at an end tag again, and that of a section is no boundary.
-/

namespace HtmlPrinter

namespace Node

/-- Keeps the nodes that are not blank text. -/
def solid (nodes : List Node) : List Node := nodes.filter (!·.isBlank)

/-- Says that two lists differ in blank text only: one comes from the other by putting some in and
taking some away. -/
def SameSolid (as bs : List Node) : Prop := solid as = solid bs

variable {as bs : List Node}

theorem SameSolid.find? (h : SameSolid as bs) :
    as.find? (!·.isBlank) = bs.find? (!·.isBlank) := by
  rw [← List.head?_filter, ← List.head?_filter]
  exact congrArg List.head? h

private theorem solid_append_of_blank (hblank : ∀ node ∈ as, node.isBlank = true) (bs : List Node) :
    solid (as ++ bs) = solid bs := by
  have hidden : solid as = [] := by
    rw [solid, List.filter_eq_nil_iff]
    intro node hnode
    simp [hblank node hnode]
  rw [solid, List.filter_append, ← solid, hidden, List.nil_append]
  rfl

private theorem lastSolid?_fst (nodes : List Node) :
    (lastSolid? nodes).map Prod.fst = (solid nodes).getLast? := by
  induction nodes with
  | nil => rfl
  | cons node rest ih =>
      rw [lastSolid?, solid, List.filter_cons, ← solid]
      cases hrest : lastSolid? rest with
      | some found =>
          rw [hrest, Option.map_some] at ih
          rw [Option.some_or, Option.map_some]
          cases node.isBlank with
          | true => exact ih
          | false =>
              simp only [Bool.not_false, if_true]
              rw [List.getLast?_cons, ← ih, Option.getD_some]
      | none =>
          rw [hrest, Option.map_none] at ih
          have blank : solid rest = [] := List.getLast?_eq_none_iff.1 ih.symm
          rw [Option.none_or, blank]
          cases node.isBlank <;> rfl

theorem SameSolid.lastSolid? (h : SameSolid as bs) :
    (lastSolid? as = none ∧ lastSolid? bs = none) ∨
      ∃ node blanks blanks', Node.lastSolid? as = some (node, blanks) ∧
        Node.lastSolid? bs = some (node, blanks') := by
  have last : (Node.lastSolid? as).map Prod.fst = (Node.lastSolid? bs).map Prod.fst := by
    rw [lastSolid?_fst, lastSolid?_fst, h]
  cases has : Node.lastSolid? as with
  | none =>
      rw [has, Option.map_none, eq_comm, Option.map_eq_none_iff] at last
      exact .inl ⟨rfl, last⟩
  | some found =>
      obtain ⟨node, blanks⟩ := found
      rw [has, Option.map_some, eq_comm, Option.map_eq_some_iff] at last
      obtain ⟨⟨node', blanks'⟩, hbs, rfl⟩ := last
      exact .inr ⟨node', blanks, blanks', rfl, hbs⟩

end Node

/-- Says that two elements of one name stand below the same parent, and that their siblings in
front and behind are related. -/
structure Place.Correspond (related : List Node → List Node → Prop) (e f : Element)
    (p q : Place) : Prop where
  left : p.Holds e
  right : q.Holds f
  tag : e.tag = f.tag
  parent : p.parent = q.parent
  front : related p.preceding q.preceding
  back : related p.following q.following

variable {e f : Element} {p q : Place}

theorem EndRule.holds_congr_solid {rule : EndRule} (hrule : rule ≠ .boundary)
    (hparent : p.parent = q.parent) (hback : Node.SameSolid p.following q.following) :
    rule.holds p = rule.holds q := by
  have next : p.nextSolid? = q.nextSolid? := Node.SameSolid.find? hback
  cases rule with
  | boundary => exact absurd rfl hrule
  | _ => simp only [holds, next, hparent]

theorem Element.endTagImplied_congr_solid (htag : e.tag = f.tag)
    (hrule : endRule? e.tag ≠ some .boundary) (hparent : p.parent = q.parent)
    (hback : Node.SameSolid p.following q.following) : e.endTagImplied p = f.endTagImplied q := by
  rw [endTagImplied, endTagImplied, ← htag]
  cases found : endRule? e.tag with
  | none => rfl
  | some rule =>
      have apart : rule ≠ .boundary := by
        rintro rfl
        exact hrule found
      rw [Option.any_some, Option.any_some, rule.holds_congr_solid apart hparent hback]

private theorem leavesOpen_congr_solid {tags : List String} {front front' : List Node}
    (tag : String) (htags : ∀ name ∈ tags, endRule? name ≠ some .boundary)
    (hfront : Node.SameSolid front front') :
    leavesOpen tags tag front = leavesOpen tags tag front' := by
  rw [leavesOpen, leavesOpen]
  rcases hfront.lastSolid? with ⟨hp, hq⟩ | ⟨previous, blanks, blanks', hp, hq⟩
  · rw [hp, hq]
  · obtain ⟨-, hblank, -⟩ := Node.exists_append_of_lastSolid? hp
    obtain ⟨-, hblank', -⟩ := Node.exists_append_of_lastSolid? hq
    rw [hp, hq]
    cases previous with
    | element a =>
        by_cases ha : nameIn a.tag tags = true
        · obtain ⟨name, hname, hsame⟩ := List.any_eq_true.1 ha
          have apart : endRule? a.tag ≠ some .boundary := by
            rw [endRule?_congr hsame]
            exact htags name hname
          have behind : Node.SameSolid (Place.upTo tag a blanks).following
              (Place.upTo tag a blanks').following := by
            rw [Place.following_upTo, Place.following_upTo, Node.SameSolid,
              Node.solid_append_of_blank hblank, Node.solid_append_of_blank hblank']
          have ends : a.endTagImplied (.upTo tag a blanks) =
              a.endTagImplied (.upTo tag a blanks') :=
            Element.endTagImplied_congr_solid rfl apart rfl behind
          exact congrArg (nameIn a.tag tags && ·) ends
        · simp [ha]
    | _ => rfl

/-- Decides whether a rule passes over blank text, in the element as well as in front of it. -/
def StartRule.skipsBlank : StartRule → Bool
  | document => true
  | metadata => false
  | content => false
  | tablePart _ skipBlank after => skipBlank && after.all (endRule? · != some .boundary)

theorem StartRule.holds_congr_solid {rule : StartRule} (hrule : rule.skipsBlank = true)
    (h : Place.Correspond Node.SameSolid e f p q)
    (hchildren : Node.SameSolid e.children f.children) : rule.holds e p = rule.holds f q := by
  have first : e.firstSolid? = f.firstSolid? := Node.SameSolid.find? hchildren
  cases rule with
  | document => rw [holds, holds, first]
  | metadata => cases hrule
  | content => cases hrule
  | tablePart child skipBlank after =>
      rw [skipsBlank, Bool.and_eq_true] at hrule
      obtain ⟨rfl, hafter⟩ := hrule
      have apart : ∀ name ∈ after, endRule? name ≠ some .boundary := by
        intro name hname
        simpa using List.all_eq_true.1 hafter name hname
      have opened : p.afterOpen after = q.afterOpen after := by
        rw [h.left.afterOpen, h.right.afterOpen, ← h.tag]
        exact leavesOpen_congr_solid e.tag apart h.front
      simp only [holds, opened, first, if_true]

theorem Element.startTagImplied_congr_solid (h : Place.Correspond Node.SameSolid e f p q)
    (hrule : (startRule? e.tag).all StartRule.skipsBlank = true)
    (hchildren : Node.SameSolid e.children f.children) :
    e.startTagImplied p = f.startTagImplied q := by
  rw [startTagImplied, startTagImplied, ← h.tag]
  cases found : startRule? e.tag with
  | none => rfl
  | some rule =>
      rw [found, Option.all_some] at hrule
      rw [Option.any_some, Option.any_some, rule.holds_congr_solid hrule h hchildren]

private theorem endRule?_ne_boundary {tag : String} (h : nameIn tag boundaryElements = false) :
    endRule? tag ≠ some .boundary := by
  have table : ∀ entry ∈ endRules, entry.2 = .boundary → entry.1 ∈ boundaryElements := by
    decide
  intro hrule
  obtain ⟨entry, found, hboundary⟩ := Option.map_eq_some_iff.1 hrule
  have listed := table entry (List.mem_of_find?_eq_some found) hboundary
  have named : sameName tag entry.1 = true := by simpa using List.find?_some found
  rw [nameIn, List.any_eq_false] at h
  exact h entry.1 listed named

/-- Blank text between elements, put in or taken away on either side of an element, changes nothing
for its end tag unless it is a boundary, and nothing for the start tag of a document or of a section
of a table, inside of which it does not count either. -/
theorem impliedTags_congr_blank (h : Place.Correspond Node.SameSolid e f p q) :
    (nameIn e.tag boundaryElements = false → e.endTagImplied p = f.endTagImplied q) ∧
    (nameIn e.tag ["html", "tbody"] = true → Node.SameSolid e.children f.children →
      e.startTagImplied p = f.startTagImplied q) := by
  constructor
  · intro hname
    exact Element.endTagImplied_congr_solid h.tag (endRule?_ne_boundary hname) h.parent h.back
  · intro hname hchildren
    have table : ∀ name ∈ ["html", "tbody"],
        (startRule? name).all StartRule.skipsBlank = true := by
      decide
    obtain ⟨name, listed, hsame⟩ := List.any_eq_true.1 hname
    apply Element.startTagImplied_congr_solid h ?_ hchildren
    rw [startRule?_congr hsame]
    exact table name listed

/-- A section behind a head that is still open, on one line and laid out on several. -/
theorem impliedTags_congr_blank_section :
    let row : Node := .element ⟨"tr", ∅, []⟩
    let head : Node := .element ⟨"thead", ∅, [row]⟩
    let e : Element := ⟨"tbody", ∅, [row]⟩
    let f : Element := ⟨"tbody", ∅, [.text "\n  ", row, .text "\n"]⟩
    let p : Place := ⟨some "table", [head, .element e, .element e], 1⟩
    let q : Place := ⟨some "table", [.text "\n", head, .text "\n", .text "", .element f,
      .text "\t", .element e, .text "\n"], 4⟩
    Place.Correspond Node.SameSolid e f p q ∧ Node.SameSolid e.children f.children ∧
      e.endTagImplied p = f.endTagImplied q ∧ e.startTagImplied p = f.startTagImplied q := by
  intro row head e f p q
  have sections : Place.Correspond Node.SameSolid e f p q := by
    constructor <;> rfl
  have children : Node.SameSolid e.children f.children := rfl
  have implied := impliedTags_congr_blank sections
  exact ⟨sections, children, implied.1 (by decide), implied.2 (by decide) children⟩

end HtmlPrinter
