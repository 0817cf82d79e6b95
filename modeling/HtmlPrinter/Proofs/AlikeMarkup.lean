import HtmlPrinter.Proofs.DocumentOrder
import HtmlPrinter.Proofs.Looks
import HtmlPrinter.Proofs.SiblingMarkup

/-!
# Markup of trees that look alike

Nodes anywhere in a tree are replaced by others (`Replaced`). The rules for implied tags see the
replaced nodes from the tags of their siblings and of their parents, and nothing else does. So the
tree is written as before if each node is written like the one in its place and, where tags are left
out, looks like it: `render_replaced` says so.
-/

namespace HtmlPrinter

mutual

/-- Relates a node below a dialect and a parent to the same node with some of the nodes in it, the
node itself among them, replaced by related ones. -/
inductive Replaced (related : Dialect → Option String → Node → Node → Prop) :
    Dialect → Option String → Node → Node → Prop
  | same (dialect : Dialect) (parent : Option String) (node : Node) :
      Replaced related dialect parent node node
  | here {dialect : Dialect} {parent : Option String} {a b : Node}
      (hrelated : related dialect parent a b) : Replaced related dialect parent a b
  | root {dialect : Dialect} {parent : Option String} {children children' : List Node} :
      ReplacedAll related dialect none children children' →
        Replaced related dialect parent (.root children) (.root children')
  | element {dialect : Dialect} {parent : Option String} {tag : String} {attrs : Attributes}
      {children children' : List Node} :
      ReplacedAll related (dialect.enter tag) (some tag) children children' →
        Replaced related dialect parent (.element ⟨tag, attrs, children⟩)
          (.element ⟨tag, attrs, children'⟩)

inductive ReplacedAll (related : Dialect → Option String → Node → Node → Prop) :
    Dialect → Option String → List Node → List Node → Prop
  | nil {dialect : Dialect} {parent : Option String} : ReplacedAll related dialect parent [] []
  | cons {dialect : Dialect} {parent : Option String} {node node' : Node}
      {nodes nodes' : List Node} : Replaced related dialect parent node node' →
        ReplacedAll related dialect parent nodes nodes' →
          ReplacedAll related dialect parent (node :: nodes) (node' :: nodes')

end

private theorem ReplacedAll.isEmpty_eq {related : Dialect → Option String → Node → Node → Prop}
    {dialect : Dialect} {parent : Option String} {as bs : List Node}
    (h : ReplacedAll related dialect parent as bs) : as.isEmpty = bs.isEmpty := by
  cases h <;> rfl

/-- Says that a configuration writes related nodes alike, wherever they stand, and that they look
alike where tags are left out. -/
structure Config.Ignores (cfg : Config)
    (related : Dialect → Option String → Node → Node → Prop) : Prop where
  look {dialect : Dialect} {parent : Option String} {a b : Node} :
    related dialect parent a b → cfg.omits dialect = true → a.look = b.look
  markup {dialect : Dialect} {parent : Option String} {a b : Node} {p q : Place} :
    related dialect parent a b → p.parent = parent → q.parent = parent →
      (cfg.omits dialect = true → p.Alike q) → cfg.markup dialect p a = cfg.markup dialect q b

namespace Config

variable {cfg : Config}

private theorem omits_of_omits_enter {dialect : Dialect} {tag : String}
    (h : cfg.omits (dialect.enter tag) = true) : cfg.omits dialect = true := by
  unfold Dialect.enter at h
  split at h
  · rw [omits_svg] at h
    cases h
  · exact h

private theorem markup_element_of_alike {dialect : Dialect} {tag : String} {attrs : Attributes}
    {children children' : List Node} {p q : Place} (halike : cfg.omits dialect = true → p.Alike q)
    (hlooks : cfg.omits (dialect.enter tag) = true →
      children.map Node.look = children'.map Node.look)
    (hempty : children.isEmpty = children'.isEmpty)
    (hbelow : cfg.markupFrom (dialect.enter tag) (some tag) children 0 children =
      cfg.markupFrom (dialect.enter tag) (some tag) children' 0 children') :
    cfg.markup dialect p (.element ⟨tag, attrs, children⟩) =
      cfg.markup dialect q (.element ⟨tag, attrs, children'⟩) := by
  have closed : cfg.selfCloses (dialect.enter tag) ⟨tag, attrs, children⟩ =
      cfg.selfCloses (dialect.enter tag) ⟨tag, attrs, children'⟩ := by
    cases dialect.enter tag with
    | html => rfl
    | svg => rw [selfCloses, selfCloses, hempty]
  cases homits : cfg.omits (dialect.enter tag) with
  | false =>
      apply markup_element_congr closed _ _ hbelow
      · simp only [omitsStartTag, homits, Bool.false_and]
      · simp only [omitsEndTag, homits, Bool.false_and]
  | true =>
      have alike := halike (omits_of_omits_enter homits)
      have started : (Element.mk tag attrs children).startTagImplied p =
          (Element.mk tag attrs children').startTagImplied q :=
        Element.startTagImplied_congr_look rfl (hlooks homits) alike.afterOpen
      have ended : (Element.mk tag attrs children).endTagImplied p =
          (Element.mk tag attrs children').endTagImplied q :=
        Element.endTagImplied_congr_look rfl alike.parent alike.following
      apply markup_element_congr closed _ _ hbelow
      · rw [omitsStartTag, omitsStartTag, started]
        rfl
      · rw [omitsEndTag, omitsEndTag, ended]

private theorem markup_of_alike {dialect : Dialect} {p q : Place} (hparent : p.parent = q.parent)
    (halike : cfg.omits dialect = true → p.Alike q) (node : Node) :
    cfg.markup dialect p node = cfg.markup dialect q node := by
  cases node with
  | element e =>
      obtain ⟨tag, attrs, children⟩ := e
      exact markup_element_of_alike halike (fun _ => rfl) rfl rfl
  | text content => simp [markup, pieces, hparent]
  | _ => rfl

namespace Ignores

variable {related : Dialect → Option String → Node → Node → Prop}

private theorem look_eq (hignores : cfg.Ignores related) {dialect : Dialect}
    {parent : Option String} {a b : Node} (h : Replaced related dialect parent a b)
    (homits : cfg.omits dialect = true) : a.look = b.look := by
  cases h with
  | here hrelated => exact hignores.look hrelated homits
  | _ => rfl

private theorem map_look_eq (hignores : cfg.Ignores related) {dialect : Dialect}
    {parent : Option String} (homits : cfg.omits dialect = true) :
    ∀ {as bs : List Node}, ReplacedAll related dialect parent as bs →
      as.map Node.look = bs.map Node.look
  | _, _, .nil => rfl
  | _, _, .cons h hrest => by
      rw [List.map_cons, List.map_cons, hignores.look_eq h homits,
        hignores.map_look_eq homits hrest]

mutual

theorem markup_replaced (hignores : cfg.Ignores related) :
    ∀ {dialect : Dialect} {parent : Option String} {a b : Node} {p q : Place},
    Replaced related dialect parent a b → p.parent = parent → q.parent = parent →
      (cfg.omits dialect = true → p.Alike q) → cfg.markup dialect p a = cfg.markup dialect q b
  | _, _, _, _, _, _, .same _ _ node, hp, hq, halike =>
      markup_of_alike (hp.trans hq.symm) halike node
  | _, _, _, _, _, _, .here hrelated, hp, hq, halike => hignores.markup hrelated hp hq halike
  | _, _, _, _, _, _, .root h, _, _, _ =>
      hignores.markupFrom_replaced h fun homits => hignores.map_look_eq homits h
  | _, _, _, _, _, _, .element h, _, _, halike =>
      have looks := fun homits => hignores.map_look_eq homits h
      markup_element_of_alike halike looks h.isEmpty_eq (hignores.markupFrom_replaced h looks)

theorem markupFrom_replaced (hignores : cfg.Ignores related) :
    ∀ {dialect : Dialect} {parent : Option String} {as bs : List Node}
    {siblings siblings' : List Node} {index : Nat}, ReplacedAll related dialect parent as bs →
      (cfg.omits dialect = true → siblings.map Node.look = siblings'.map Node.look) →
        cfg.markupFrom dialect parent siblings index as =
          cfg.markupFrom dialect parent siblings' index bs
  | _, _, _, _, _, _, _, .nil, _ => rfl
  | dialect, parent, _, _, siblings, siblings', index, .cons h hrest, hlooks => by
      have alike : cfg.omits dialect = true →
          (Place.mk parent siblings index).Alike ⟨parent, siblings', index⟩ :=
        fun homits => ⟨rfl, rfl, hlooks homits⟩
      rw [markupFrom_cons, markupFrom_cons, hignores.markup_replaced h rfl rfl alike,
        hignores.markupFrom_replaced hrest hlooks]

end

/-- A tree is written as before when nodes in it are replaced by others that are written and look
like them. -/
theorem render_replaced (hignores : cfg.Ignores related) {a b : Node}
    (h : Replaced related .html none a b) : cfg.render a = cfg.render b := by
  have alike : cfg.omits .html = true → (Place.alone a).Alike (.alone b) := by
    intro homits
    refine ⟨rfl, rfl, ?_⟩
    rw [Place.alone, Place.alone, List.map_singleton, List.map_singleton,
      hignores.look_eq h homits]
  rw [render_eq_markup, render_eq_markup]
  exact hignores.markup_replaced h rfl rfl alike

end Ignores

/-- Two elements with the same content that differ in whether their start tag is left out are
written differently. -/
theorem render_element_ne (e f : Element) (he : Dialect.html.enter e.tag = .html)
    (hf : Dialect.html.enter f.tag = .html)
    (homitted : cfg.omitsStartTag .html e (.alone (.element e)) = true)
    (hwritten : cfg.omitsStartTag .html f (.alone (.element f)) = false)
    (hcontent : cfg.contentText .html e (.alone (.element e)) =
      cfg.contentText .html f (.alone (.element f))) :
    cfg.render (.element e) ≠ cfg.render (.element f) := by
  have written : 0 < (cfg.startTag .html f).length := by
    simp only [startTag, String.length_append]
    have bracket : "<".length = 1 := by decide
    omega
  intro heq
  have lengths := congrArg String.length heq
  rw [render_eq_markup, render_eq_markup, markup_element_eq, markup_element_eq, he, hf, startText,
    startText, homitted, hwritten, hcontent, if_pos rfl, if_neg Bool.false_ne_true,
    String.empty_append, String.length_append] at lengths
  omega

end Config

end HtmlPrinter
