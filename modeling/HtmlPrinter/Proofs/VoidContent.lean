import HtmlPrinter.Proofs.AlikeMarkup

/-!
# The content of void elements

Nothing in a void element is written, and no sibling or parent sees it. Only a rule for the start
tag of the element itself may ask for its children, so the children of void elements matter exactly
where tags are left out and an element with such a rule was made void; `forall_render_refilled_iff`
says so. In a drawing no element is void.
-/

namespace HtmlPrinter

/-- Relates void elements outside drawings to the same elements with other children. -/
inductive Refilled (cfg : Config) : Dialect → Option String → Node → Node → Prop
  | refill {parent : Option String} {e : Element} {children : List Node}
      (hvoid : cfg.isVoid e.tag = true) (hsvg : sameName e.tag "svg" = false) :
      Refilled cfg .html parent (.element e) (.element { e with children := children })

/-- Lists the elements with a rule for their start tag. -/
def startRuled : List String := ["html", "head", "body", "colgroup", "tbody"]

private theorem isSome_startRule? (tag : String) :
    (startRule? tag).isSome = nameIn tag startRuled := by
  rw [Bool.eq_iff_iff, startRule?, Option.isSome_map, List.find?_isSome, nameIn, List.any_eq_true]
  simp [startRules, startRuled]

namespace Config

variable {cfg : Config}

private theorem contentText_of_isVoid (e : Element) (hvoid : cfg.isVoid e.tag = true)
    (place : Place) : cfg.contentText .html e place = "" := by
  rw [contentText, isLeaf, if_pos hvoid]

private theorem startRule?_of_isVoid {tag : String} (hvoid : cfg.isVoid tag = true)
    (hvoids : ∀ name ∈ cfg.voids, nameIn name startRuled = false) : startRule? tag = none := by
  obtain ⟨name, hname, same⟩ := List.any_eq_true.1 hvoid
  rw [← Option.not_isSome_iff_eq_none, isSome_startRule?, nameIn_congr same, hvoids name hname]
  exact Bool.false_ne_true

/-- A void element is its start tag, which no child has a say in if it has no rule. -/
theorem markup_refilled {dialect : Dialect} {parent : Option String} {a b : Node}
    (hrefilled : Refilled cfg dialect parent a b)
    (h : cfg.omitOptionalTags = false ∨ ∀ name ∈ cfg.voids, nameIn name startRuled = false)
    (p q : Place) : cfg.markup dialect p a = cfg.markup dialect q b := by
  cases hrefilled with
  | @refill _ e children hvoid hsvg =>
      let f : Element := { e with children := children }
      have stays : Dialect.html.enter e.tag = .html := if_neg (by simp [hsvg])
      have started : cfg.omitsStartTag .html e p = cfg.omitsStartTag .html f q := by
        rcases h with hkept | hvoids
        · rw [omitsStartTag, omitsStartTag, omits, hkept]
          rfl
        · have unruled : startRule? e.tag = none := startRule?_of_isVoid hvoid hvoids
          rw [omitsStartTag_of_unruled e unruled, omitsStartTag_of_unruled f unruled]
      rw [markup_element_eq, markup_element_eq, stays, contentText_of_isVoid e hvoid,
        contentText_of_isVoid f hvoid, startText, startText, started]
      rfl

private theorem ignores_refilled
    (h : cfg.omitOptionalTags = false ∨ ∀ name ∈ cfg.voids, nameIn name startRuled = false) :
    cfg.Ignores (Refilled cfg) where
  look hrefilled _ := by
    cases hrefilled
    rfl
  markup hrefilled _ _ _ := markup_refilled hrefilled h _ _

/-- Each rule for start tags is kept or broken by what the children are. -/
theorem exists_startTagImplied_ne {tag : String}
    (htag : tag ∈ startRuled) :
    ∃ children children' : List Node,
      Element.startTagImplied ⟨tag, ∅, children⟩ (.alone (.element ⟨tag, ∅, children⟩)) = true ∧
      Element.startTagImplied ⟨tag, ∅, children'⟩ (.alone (.element ⟨tag, ∅, children'⟩)) =
        false := by
  simp only [startRuled, List.mem_cons, List.not_mem_nil, or_false] at htag
  rcases htag with rfl | rfl | rfl | rfl | rfl
  · exact ⟨[], [.comment ""], by decide, by decide⟩
  · exact ⟨[.text ""], [], by decide, by decide⟩
  · exact ⟨[], [.comment ""], by decide, by decide⟩
  · exact ⟨[.element { tag := "col" }], [], by decide, by decide⟩
  · exact ⟨[.element { tag := "tr" }], [], by decide, by decide⟩

private theorem exists_refilled_ne (homit : cfg.omitOptionalTags = true) {name : String}
    (hname : name ∈ cfg.voids) (hruled : nameIn name startRuled = true) :
    ∃ a b, Replaced (Refilled cfg) .html none a b ∧ cfg.render a ≠ cfg.render b := by
  obtain ⟨tag, htag, same⟩ := List.any_eq_true.1 hruled
  have hvoid : cfg.isVoid tag = true :=
    List.any_eq_true.2 ⟨name, hname, (sameName_comm tag name).trans same⟩
  have hsvg : sameName tag "svg" = false := by
    have table : startRuled.all (fun ruled => !sameName ruled "svg") = true := by decide
    simpa using List.all_eq_true.1 table tag htag
  have stays : Dialect.html.enter tag = .html := if_neg (by simp [hsvg])
  obtain ⟨children, children', implied, kept⟩ := exists_startTagImplied_ne htag
  refine ⟨.element ⟨tag, ∅, children⟩, .element ⟨tag, ∅, children'⟩, .here (.refill hvoid hsvg), ?_⟩
  apply render_element_ne ⟨tag, ∅, children⟩ ⟨tag, ∅, children'⟩ stays stays
  · rw [omitsStartTag_of_bare homit, implied]
  · rw [omitsStartTag_of_bare homit, kept]
  · rw [contentText_of_isVoid ⟨tag, ∅, children⟩ hvoid,
      contentText_of_isVoid ⟨tag, ∅, children'⟩ hvoid]

/-- Other children can be put into void elements outside drawings without a change exactly if all
tags are kept, or no element whose start tag may be left out is void. -/
theorem forall_render_refilled_iff (cfg : Config) :
    (∀ a b, Replaced (Refilled cfg) .html none a b → cfg.render a = cfg.render b) ↔
      (cfg.omitOptionalTags = false ∨ ∀ name ∈ cfg.voids, nameIn name startRuled = false) := by
  constructor
  · intro hsame
    cases homit : cfg.omitOptionalTags with
    | false => exact .inl rfl
    | true =>
        right
        intro name hname
        by_contra hruled
        rw [Bool.not_eq_false] at hruled
        obtain ⟨a, b, refilled, differ⟩ := exists_refilled_ne homit hname hruled
        exact differ (hsame a b refilled)
  · intro h a b refilled
    exact (ignores_refilled h).render_replaced refilled

/-- Line breaks may hold anything, but not a body that was made void. -/
theorem forall_render_refilled_iff_lineBreak :
    let cfg : Config := { omitOptionalTags := true }
    let bodiless : Config := { omitOptionalTags := true, voids := ["BODY"] }
    let item (children : List Node) : Node :=
      .element ⟨"li", ∅, [.text "1", .element ⟨"Br", ∅, children⟩, .text "2"]⟩
    let list (children : List Node) : Node :=
      .element ⟨"ul", ∅, [item children, .text "\n", item children]⟩
    let a := list []
    let b := list [.element ⟨"svg", ∅, [item []]⟩, .comment "c"]
    Replaced (Refilled cfg) .html none a b ∧
      cfg.render a = "<ul><li>1<Br>2\n<li>1<Br>2</ul>" ∧ cfg.render a = cfg.render b ∧
      ¬ ∀ a b, Replaced (Refilled bodiless) .html none a b →
        bodiless.render a = bodiless.render b := by
  intro cfg bodiless item list a b
  have items : ∀ children, Replaced (Refilled cfg) .html (some "ul") (item []) (item children) := by
    intro children
    refine .element (.cons (.same _ _ _) (.cons (.here ?_) (.cons (.same _ _ _) .nil)))
    exact .refill (by decide) (by decide)
  have refilled : Replaced (Refilled cfg) .html none a b :=
    .element (.cons (items _) (.cons (.same _ _ _) (.cons (items _) .nil)))
  refine ⟨refilled, by decide +kernel, ?_, ?_⟩
  · exact (forall_render_refilled_iff cfg).2 (.inr (by decide)) a b refilled
  · intro hall
    rcases (forall_render_refilled_iff bodiless).1 hall with hkept | hvoids
    · cases hkept
    · exact absurd (hvoids "BODY" List.mem_cons_self) (by decide)

end Config

end HtmlPrinter
