import HtmlPrinter.Proofs.DocumentOrder
import HtmlPrinter.Proofs.Looks
import HtmlPrinter.Proofs.SiblingMarkup

/-!
# An element on its own

An element can be printed outside any tree, as a tree of its own, or as the only child of a root.
The rules for implied tags are asked at a different place each time, but at all of them there is no
parent, and nothing stands in front of the element or behind it. So the same tags are left out, and
on every sink the same is printed; `printElement_eq_printNode` says so.
-/

namespace HtmlPrinter

/-- Says that nothing is around a place. -/
structure Place.Solitary (place : Place) : Prop where
  parent : place.parent = none
  following : place.following = []
  preceding : place.preceding = []

private theorem Place.solitary_detached : Place.detached.Solitary := ⟨rfl, rfl, rfl⟩

private theorem Place.solitary_alone (node : Node) : (Place.alone node).Solitary := ⟨rfl, rfl, rfl⟩

section

variable {p q : Place}

private theorem Element.endTagImplied_of_solitary (hp : p.Solitary) (hq : q.Solitary)
    (e : Element) : e.endTagImplied p = e.endTagImplied q := by
  have parent : p.parent = q.parent := by rw [hp.parent, hq.parent]
  have following : p.following = q.following := by rw [hp.following, hq.following]
  rw [endTagImplied, endTagImplied]
  congr 1
  funext rule
  exact rule.holds_congr parent following

private theorem Element.startTagImplied_of_solitary (hp : p.Solitary) (hq : q.Solitary)
    (e : Element) : e.startTagImplied p = e.startTagImplied q := by
  refine e.startTagImplied_congr_look rfl rfl fun tags => ?_
  rw [p.afterOpen_of_preceding hp.preceding, q.afterOpen_of_preceding hq.preceding]

end

namespace Config

theorem markup_element_of_solitary {cfg : Config} {dialect : Dialect} {p q : Place}
    (hp : p.Solitary) (hq : q.Solitary) (e : Element) :
    cfg.markup dialect p (.element e) = cfg.markup dialect q (.element e) := by
  have started := e.startTagImplied_of_solitary hp hq
  have ended := e.endTagImplied_of_solitary hp hq
  obtain ⟨tag, attrs, children⟩ := e
  refine markup_element_congr rfl ?_ ?_ rfl
  · rw [omitsStartTag, omitsStartTag, started]
  · rw [omitsEndTag, omitsEndTag, ended]

/-- It makes no difference whether an element is opened before the walk or visited by it. -/
theorem printElement_eq_run (cfg : Config) (e : Element) :
    cfg.printElement e = cfg.run [.visit (.element e) .detached .html] := by
  rw [run_cons, List.append_nil, printElement]

/-- All ways to print an element on its own agree: outside any tree, be it opened beforehand or
visited, as a tree, and as the only child of a root. -/
theorem printElement_eq_printNode (cfg : Config) (e : Element) :
    cfg.printElement e = cfg.printNode (.element e) ∧
    cfg.run [.visit (.element e) .detached .html] = cfg.printNode (.element e) ∧
    cfg.printNode (.root [.element e]) = cfg.printNode (.element e) ∧
    cfg.renderElement e = cfg.render (.element e) ∧
    cfg.render (.root [.element e]) = cfg.render (.element e) := by
  have visited : cfg.run [.visit (.element e) .detached .html] = cfg.printNode (.element e) := by
    rw [run_visit_eq_write, printNode_eq_write,
      markup_element_of_solitary Place.solitary_detached (Place.solitary_alone (.element e))]
  have opened : cfg.printElement e = cfg.printNode (.element e) := by
    rw [printElement_eq_run, visited]
  have wrapped : cfg.printNode (.root [.element e]) = cfg.printNode (.element e) := by
    have only : cfg.markup .html (.alone (.root [.element e])) (.root [.element e]) =
        cfg.markup .html (.alone (.element e)) (.element e) := by
      rw [markup_root, markupFrom_cons, markupFrom_nil, String.append_empty]
      rfl
    rw [printNode_eq_write, only, printNode_eq_write]
  exact ⟨opened, visited, wrapped, congrArg Printer.toText opened,
    congrArg Printer.toText wrapped⟩

end Config

end HtmlPrinter
