import HtmlPrinter.Proofs.AlikeMarkup

/-!
# Markup that is not trusted

A raw node that is not trusted is written like text. The rules for implied tags do not know that:
they take no raw node for blank text, nor for text that starts with a space. So text can be put in
place of a raw node without any change exactly where the rules are not asked, or see the same in
both: where all tags are kept, in a drawing, and where the payload starts with something else than a
space. `forall_render_recast_iff` says so.
-/

namespace HtmlPrinter

mutual

/-- Relates a node below a dialect and a parent to the same node with text in place of some of the
chosen raw nodes in it, none of them directly in a script or a style. -/
inductive Recast (chosen : Dialect → String → Prop) : Dialect → Option String → Node → Node → Prop
  | same (dialect : Dialect) (parent : Option String) (node : Node) :
      Recast chosen dialect parent node node
  | raw {dialect : Dialect} {parent : Option String} {payload : String}
      (hparent : ∀ tag ∈ parent, holdsRawText tag = false) (hchosen : chosen dialect payload) :
      Recast chosen dialect parent (.raw payload) (.text payload)
  | root {dialect : Dialect} {parent : Option String} {children children' : List Node} :
      RecastAll chosen dialect none children children' →
        Recast chosen dialect parent (.root children) (.root children')
  | element {dialect : Dialect} {parent : Option String} {tag : String} {attrs : Attributes}
      {children children' : List Node} :
      RecastAll chosen (dialect.enter tag) (some tag) children children' →
        Recast chosen dialect parent (.element ⟨tag, attrs, children⟩)
          (.element ⟨tag, attrs, children'⟩)

inductive RecastAll (chosen : Dialect → String → Prop) :
    Dialect → Option String → List Node → List Node → Prop
  | nil {dialect : Dialect} {parent : Option String} : RecastAll chosen dialect parent [] []
  | cons {dialect : Dialect} {parent : Option String} {node node' : Node}
      {nodes nodes' : List Node} : Recast chosen dialect parent node node' →
        RecastAll chosen dialect parent nodes nodes' →
          RecastAll chosen dialect parent (node :: nodes) (node' :: nodes')

end

/-- Decides whether a text starts with something else than a space. -/
def startsSolid (payload : String) : Bool := payload.toList.head?.any (!isSpace ·)

/-- The rules see the same in a raw node and in text exactly if the payload starts solid. -/
theorem look_raw_eq_iff {payload : String} :
    (Node.raw payload).look = (Node.text payload).look ↔ startsSolid payload = true := by
  simp only [Node.look, Node.isBlank, Node.startsBlank, startsSolid]
  cases payload.toList with
  | nil => simp
  | cons c cs => cases hc : isSpace c <;> simp [hc, Node.isComment, Node.element?]

/-- Relates the chosen raw nodes, where text is written with references, to text. -/
inductive RawAsText (chosen : Dialect → String → Prop) :
    Dialect → Option String → Node → Node → Prop
  | raw {dialect : Dialect} {parent : Option String} {payload : String}
      (hparent : ∀ tag ∈ parent, holdsRawText tag = false) (hchosen : chosen dialect payload) :
      RawAsText chosen dialect parent (.raw payload) (.text payload)

mutual

theorem Recast.replaced {chosen : Dialect → String → Prop} :
    ∀ {dialect : Dialect} {parent : Option String} {a b : Node},
      Recast chosen dialect parent a b → Replaced (RawAsText chosen) dialect parent a b
  | _, _, _, _, .same dialect parent node => .same dialect parent node
  | _, _, _, _, .raw hparent hchosen => .here (.raw hparent hchosen)
  | _, _, _, _, .root h => .root h.replaced
  | _, _, _, _, .element h => .element h.replaced

theorem RecastAll.replaced {chosen : Dialect → String → Prop} :
    ∀ {dialect : Dialect} {parent : Option String} {as bs : List Node},
      RecastAll chosen dialect parent as bs → ReplacedAll (RawAsText chosen) dialect parent as bs
  | _, _, _, _, .nil => .nil
  | _, _, _, _, .cons h hrest => .cons h.replaced hrest.replaced

end

namespace Config

variable {cfg : Config} {chosen : Dialect → String → Prop}

private theorem markup_raw_eq_text (huntrusted : cfg.allowDangerousHtml = false) {dialect : Dialect}
    (p q : Place) (hparent : ∀ tag ∈ q.parent, holdsRawText tag = false) (payload : String) :
    cfg.markup dialect p (.raw payload) = cfg.markup dialect q (.text payload) := by
  rw [markup_raw huntrusted, markup_text hparent]

private theorem ignores_rawAsText (huntrusted : cfg.allowDangerousHtml = false)
    (hsolid : ∀ dialect, cfg.omits dialect = true → ∀ payload, chosen dialect payload →
      startsSolid payload = true) : cfg.Ignores (RawAsText chosen) where
  look := by
    rintro _ _ _ _ ⟨_, hchosen⟩ homits
    exact look_raw_eq_iff.2 (hsolid _ homits _ hchosen)
  markup := by
    rintro _ _ _ _ p q ⟨hparent, _⟩ _ hq _
    exact markup_raw_eq_text huntrusted p q (hq ▸ hparent) _

private theorem render_element_ne_of_below {tag : String} {children children' : List Node}
    (hdialect : Dialect.html.enter tag = .html)
    (homitted : cfg.omitsStartTag .html ⟨tag, ∅, children⟩
      (.alone (.element ⟨tag, ∅, children⟩)) = true)
    (hwritten : cfg.omitsStartTag .html ⟨tag, ∅, children'⟩
      (.alone (.element ⟨tag, ∅, children'⟩)) = false)
    (hbelow : cfg.markupFrom .html (some tag) children 0 children =
      cfg.markupFrom .html (some tag) children' 0 children') :
    cfg.render (.element ⟨tag, ∅, children⟩) ≠ cfg.render (.element ⟨tag, ∅, children'⟩) := by
  have ended : (Element.mk tag ∅ children).endTagImplied (.alone (.element ⟨tag, ∅, children⟩)) =
      (Element.mk tag ∅ children').endTagImplied (.alone (.element ⟨tag, ∅, children'⟩)) :=
    Element.endTagImplied_congr_look rfl rfl rfl
  have content : cfg.contentText .html ⟨tag, ∅, children⟩ (.alone (.element ⟨tag, ∅, children⟩)) =
      cfg.contentText .html ⟨tag, ∅, children'⟩ (.alone (.element ⟨tag, ∅, children'⟩)) := by
    simp only [contentText, isLeaf, endText, omitsEndTag, ended, hbelow]
    rfl
  exact render_element_ne _ _ hdialect hdialect homitted hwritten content

private theorem render_html_ne (huntrusted : cfg.allowDangerousHtml = false)
    (homit : cfg.omitOptionalTags = true) {payload : String}
    (hblank : (Node.text payload).isBlank = true) :
    cfg.render (.element ⟨"html", ∅, [.raw payload, .comment ""]⟩) ≠
      cfg.render (.element ⟨"html", ∅, [.text payload, .comment ""]⟩) := by
  have rule : startRule? "html" = some .document := by decide
  refine render_element_ne_of_below rfl ?_ ?_ ?_
  · have solid : (Node.raw payload).isBlank = false := rfl
    have implied : Element.startTagImplied ⟨"html", ∅, [.raw payload, .comment ""]⟩
        (.alone (.element ⟨"html", ∅, [.raw payload, .comment ""]⟩)) = true := by
      simp [Element.startTagImplied, rule, StartRule.holds, Element.firstSolid?, solid,
        Node.isComment]
    rw [omitsStartTag_of_bare homit, implied]
  · have kept : Element.startTagImplied ⟨"html", ∅, [.text payload, .comment ""]⟩
        (.alone (.element ⟨"html", ∅, [.text payload, .comment ""]⟩)) = false := by
      rw [Element.startTagImplied, rule, Option.any_some, StartRule.holds, Element.firstSolid?,
        List.find?_cons_of_neg (by simp [hblank])]
      rfl
    rw [omitsStartTag_of_bare homit, kept]
  · have plain : ∀ name ∈ some "html", holdsRawText name = false := by decide
    have first : cfg.markup .html ⟨some "html", [.raw payload, .comment ""], 0⟩ (.raw payload) =
        cfg.markup .html ⟨some "html", [.text payload, .comment ""], 0⟩ (.text payload) :=
      markup_raw_eq_text huntrusted _ _ plain payload
    rw [markupFrom_cons, first, markupFrom_cons _ _ _ (Node.text payload)]
    rfl

private theorem render_body_ne (huntrusted : cfg.allowDangerousHtml = false)
    (homit : cfg.omitOptionalTags = true) {payload : String}
    (hstarts : (Node.text payload).startsBlank = true) :
    cfg.render (.element ⟨"body", ∅, [.raw payload]⟩) ≠
      cfg.render (.element ⟨"body", ∅, [.text payload]⟩) := by
  have rule : startRule? "body" = some .content := by decide
  refine render_element_ne_of_below rfl ?_ ?_ ?_
  · have implied : Element.startTagImplied ⟨"body", ∅, [.raw payload]⟩
        (.alone (.element ⟨"body", ∅, [.raw payload]⟩)) = true := by
      rw [Element.startTagImplied, rule]
      rfl
    rw [omitsStartTag_of_bare homit, implied]
  · have kept : Element.startTagImplied ⟨"body", ∅, [.text payload]⟩
        (.alone (.element ⟨"body", ∅, [.text payload]⟩)) = false := by
      simp [Element.startTagImplied, rule, StartRule.holds, Element.firstChild?, Node.isFirm,
        hstarts]
    rw [omitsStartTag_of_bare homit, kept]
  · have plain : ∀ name ∈ some "body", holdsRawText name = false := by decide
    have first : cfg.markup .html ⟨some "body", [.raw payload], 0⟩ (.raw payload) =
        cfg.markup .html ⟨some "body", [.text payload], 0⟩ (.text payload) :=
      markup_raw_eq_text huntrusted _ _ plain payload
    rw [markupFrom_cons, first, markupFrom_cons _ _ _ (Node.text payload)]
    rfl

private theorem exists_recast_ne (huntrusted : cfg.allowDangerousHtml = false)
    (homit : cfg.omitOptionalTags = true) {payload : String}
    (hchosen : chosen .html payload) (hsolid : startsSolid payload = false) :
    ∃ a b, Recast chosen .html none a b ∧ cfg.render a ≠ cfg.render b := by
  by_cases hblank : (Node.text payload).isBlank = true
  · have recast : RecastAll chosen (Dialect.html.enter "html") (some "html")
        [.raw payload, .comment ""] [.text payload, .comment ""] :=
      .cons (.raw (by decide) hchosen) (.cons (.same _ _ _) .nil)
    exact ⟨_, _, .element recast, render_html_ne huntrusted homit hblank⟩
  · have starts : (Node.text payload).startsBlank = true := by
      cases hchars : payload.toList with
      | nil => simp [Node.isBlank, hchars] at hblank
      | cons c cs => simpa [startsSolid, Node.startsBlank, hchars] using hsolid
    have recast : RecastAll chosen (Dialect.html.enter "body") (some "body")
        [.raw payload] [.text payload] :=
      .cons (.raw (by decide) hchosen) .nil
    exact ⟨_, _, .element recast, render_body_ne huntrusted homit starts⟩

/-- Where raw markup is not trusted, text can be put in place of any of the chosen raw nodes without
a change exactly if all tags are kept, or the payloads chosen outside drawings start solid. -/
theorem forall_render_recast_iff (cfg : Config) (huntrusted : cfg.allowDangerousHtml = false)
    (chosen : Dialect → String → Prop) :
    (∀ a b, Recast chosen .html none a b → cfg.render a = cfg.render b) ↔
      (cfg.omitOptionalTags = true → ∀ payload, chosen .html payload →
        startsSolid payload = true) := by
  constructor
  · intro hsame homit payload hchosen
    by_contra hsolid
    rw [Bool.not_eq_true] at hsolid
    obtain ⟨a, b, recast, differ⟩ := exists_recast_ne huntrusted homit hchosen hsolid
    exact differ (hsame a b recast)
  · intro hsolid a b recast
    have solid : ∀ dialect, cfg.omits dialect = true → ∀ payload, chosen dialect payload →
        startsSolid payload = true := by
      intro dialect homits
      rw [omits, Bool.and_eq_true, beq_iff_eq] at homits
      obtain ⟨homit, rfl⟩ := homits
      exact hsolid homit
    exact (ignores_rawAsText huntrusted solid).render_replaced recast.replaced

theorem forall_render_recast_iff_paragraphs :
    let cfg : Config := { omitOptionalTags := true }
    let chosen : Dialect → String → Prop :=
      fun dialect payload => dialect = .svg ∨ startsSolid payload = true
    let paragraphs (first blank last : Node) : Node := .root
      [.element ⟨"p", ∅, [first]⟩,
       .element ⟨"p", ∅, [.element ⟨"svg", ∅, [blank]⟩]⟩,
       .raw "\n", last]
    let a := paragraphs (.raw "1 < 2") (.raw " ") (.raw "&")
    let b := paragraphs (.text "1 < 2") (.text " ") (.text "&")
    cfg.allowDangerousHtml = false ∧ Recast chosen .html none a b ∧
      cfg.render a = "<p>1 &#x3C; 2<p><svg> </svg></p>\n&amp;" ∧ cfg.render a = cfg.render b ∧
      ¬ ∀ a b, Recast (fun _ _ => True) .html none a b → cfg.render a = cfg.render b := by
  intro cfg chosen paragraphs a b
  have untrusted : cfg.allowDangerousHtml = false := rfl
  have recast : Recast chosen .html none a b := by
    refine .root (.cons (.element ?_) (.cons (.element ?_) (.cons (.same _ _ _) ?_)))
    · exact .cons (.raw (by decide) (.inr (by decide))) .nil
    · exact .cons (.element (.cons (.raw (by decide) (.inl rfl)) .nil)) .nil
    · exact .cons (.raw (by decide) (.inr (by decide))) .nil
  have solid : cfg.omitOptionalTags = true → ∀ payload, chosen .html payload →
      startsSolid payload = true := by
    rintro - payload (hsvg | hsolid)
    · cases hsvg
    · exact hsolid
  refine ⟨untrusted, recast, by decide +kernel, ?_, ?_⟩
  · exact (cfg.forall_render_recast_iff untrusted chosen).2 solid a b recast
  · intro hall
    have blank := (cfg.forall_render_recast_iff untrusted fun _ _ => True).1 hall rfl " " trivial
    exact absurd blank (by decide)

/-- A blank raw node behind a caption comes into the caption, and blank text does not. -/
example :
    let cfg : Config := { omitOptionalTags := true }
    let row : Node := .element ⟨"tr", ∅, [.element ⟨"td", ∅, [.text "1"]⟩]⟩
    let table (blank : Node) : Node :=
      .element ⟨"table", ∅, [.element ⟨"caption", ∅, [.text "T"]⟩, blank, row]⟩
    cfg.render (table (.raw "\n")) = "<table><caption>T\n<tr><td>1</table>" ∧
      cfg.render (table (.text "\n")) = "<table><caption>T</caption>\n<tr><td>1</table>" := by
  decide +kernel

end Config

end HtmlPrinter
