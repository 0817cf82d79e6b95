import HtmlPrinter.Render
import Mathlib.Logic.Function.Iterate

/-!
# The order of the walk

The walk replaces the first task of a list by the tasks it gives rise to. `Task.tour` unfolds a
task completely, by recursion on the tree: the visit of a node, the tours of its children from
left to right, and last, for an element with content, the leaving of it. The tours of a list of
tasks lose exactly their first task in every step, so the walk does the tasks of the tour one by
one and then ends, and what it prints is `Config.markup`.
-/

namespace HtmlPrinter

namespace Task

mutual

/-- Lists the tasks done for a node that stands at a place below a dialect. -/
def nodeTour (cfg : Config) (dialect : Dialect) (place : Place) : Node → List Task
  | .root children =>
      visit (.root children) place dialect :: childTours cfg dialect none children 0 children
  | .element ⟨tag, attrs, children⟩ =>
      let e : Element := ⟨tag, attrs, children⟩
      let inner := dialect.enter tag
      visit (.element e) place dialect ::
        if cfg.isLeaf inner e then []
        else childTours cfg inner (some tag) children 0 children ++ [leave e place inner]
  | .text content => [visit (.text content) place dialect]
  | .comment content => [visit (.comment content) place dialect]
  | .doctype name => [visit (.doctype name) place dialect]
  | .raw markup => [visit (.raw markup) place dialect]

def childTours (cfg : Config) (dialect : Dialect) (parent : Option String)
    (siblings : List Node) (index : Nat) : List Node → List Task
  | [] => []
  | node :: rest =>
      nodeTour cfg dialect ⟨parent, siblings, index⟩ node ++
        childTours cfg dialect parent siblings (index + 1) rest

end

def tour (cfg : Config) : Task → List Task
  | visit node place dialect => nodeTour cfg dialect place node
  | leave e place dialect => [leave e place dialect]

private theorem flatMap_tour_visitsFrom (cfg : Config) (dialect : Dialect) (parent : Option String)
    (siblings : List Node) (index : Nat) (nodes : List Node) :
    (visitsFrom parent siblings dialect index nodes).flatMap (tour cfg) =
      childTours cfg dialect parent siblings index nodes := by
  induction nodes generalizing index with
  | nil => rfl
  | cons node rest ih =>
      rw [visitsFrom, List.flatMap_cons, ih, childTours]
      rfl

/-- A tour is a task followed by the tours of the tasks it gives rise to. -/
theorem tour_eq_cons (cfg : Config) (task : Task) :
    tour cfg task = task :: (task.next cfg).flatMap (tour cfg) := by
  cases task with
  | leave e place dialect => rfl
  | visit node place dialect =>
      cases node with
      | root children => simp only [tour, nodeTour, next, visits, flatMap_tour_visitsFrom]
      | element e =>
          obtain ⟨tag, attrs, children⟩ := e
          by_cases hleaf : cfg.isLeaf (dialect.enter tag) ⟨tag, attrs, children⟩ = true
          · simp [tour, nodeTour, next, hleaf]
          · simp [tour, nodeTour, next, visits, flatMap_tour_visitsFrom, hleaf]
      | _ => rfl

mutual

theorem flatMap_pieces_nodeTour (cfg : Config) (dialect : Dialect) (place : Place) :
    (node : Node) → (nodeTour cfg dialect place node).flatMap (pieces cfg) =
      cfg.pieces dialect place node
  | .root children => by
      rw [nodeTour, List.flatMap_cons,
        flatMap_pieces_childTours cfg dialect none children 0 children, Config.pieces]
      rfl
  | .element ⟨tag, attrs, children⟩ => by
      have below := flatMap_pieces_childTours cfg (dialect.enter tag) (some tag) children 0 children
      by_cases hleaf : cfg.isLeaf (dialect.enter tag) ⟨tag, attrs, children⟩ = true
      · simp [nodeTour, Config.pieces, hleaf, pieces]
      · simp [nodeTour, Config.pieces, hleaf, pieces, below]
  | .text _ | .comment _ | .doctype _ | .raw _ => by simp [nodeTour, Config.pieces, pieces]

private theorem flatMap_pieces_childTours (cfg : Config) (dialect : Dialect)
    (parent : Option String) (siblings : List Node) (index : Nat) :
    (nodes : List Node) →
      (childTours cfg dialect parent siblings index nodes).flatMap (pieces cfg) =
        cfg.piecesFrom dialect parent siblings index nodes
  | [] => rfl
  | node :: rest => by
      rw [childTours, List.flatMap_append,
        flatMap_pieces_nodeTour cfg dialect ⟨parent, siblings, index⟩ node,
        flatMap_pieces_childTours cfg dialect parent siblings (index + 1) rest, Config.piecesFrom]

end

end Task

namespace Config

/-- Takes one step of the walk: the first task makes room for the tasks it gives rise to. -/
def advance (cfg : Config) : List Task → List Task
  | [] => []
  | task :: rest => task.next cfg ++ rest

private theorem flatMap_tour_advance (cfg : Config) (tasks : List Task) :
    (cfg.advance tasks).flatMap (Task.tour cfg) = (tasks.flatMap (Task.tour cfg)).tail := by
  cases tasks with
  | nil => rfl
  | cons task rest =>
      rw [advance, List.flatMap_append, List.flatMap_cons, Task.tour_eq_cons cfg task]
      rfl

theorem flatMap_tour_iterate (cfg : Config) (n : Nat) (tasks : List Task) :
    (cfg.advance^[n] tasks).flatMap (Task.tour cfg) = (tasks.flatMap (Task.tour cfg)).drop n := by
  -- the tours of the pending tasks are what is left of the tours at the start
  induction n generalizing tasks with
  | zero => rfl
  | succ n ih =>
      rw [Function.iterate_succ_apply, ih, flatMap_tour_advance, List.drop_tail]

private theorem head?_flatMap_tour (cfg : Config) (tasks : List Task) :
    (tasks.flatMap (Task.tour cfg)).head? = tasks.head? := by
  cases tasks with
  | nil => rfl
  | cons task rest =>
      rw [List.flatMap_cons, Task.tour_eq_cons cfg task]
      rfl

private theorem head?_advance_iterate (cfg : Config) (n : Nat) (tasks : List Task) :
    (cfg.advance^[n] tasks).head? = (tasks.flatMap (Task.tour cfg))[n]? := by
  rw [← head?_flatMap_tour, flatMap_tour_iterate, List.head?_drop]

private theorem advance_iterate_length (cfg : Config) (tasks : List Task) :
    cfg.advance^[(tasks.flatMap (Task.tour cfg)).length] tasks = [] := by
  rw [← List.head?_eq_none_iff, head?_advance_iterate]
  exact List.getElem?_eq_none (Nat.le_refl _)

/-- After any number of steps the walk has printed the pieces of as many tasks of the tours, and
goes on from the tasks that are left. -/
theorem run_eq_iterate (cfg : Config) (n : Nat) (tasks : List Task) :
    cfg.run tasks = (do
      cfg.printPieces (((tasks.flatMap (Task.tour cfg)).take n).flatMap (Task.pieces cfg))
      cfg.run (cfg.advance^[n] tasks)) := by
  induction n generalizing tasks with
  | zero => rfl
  | succ n ih =>
      cases tasks with
      | nil =>
          have stays : cfg.advance [] = [] := rfl
          rw [Function.iterate_succ_apply, stays]
          simpa only [List.flatMap_nil, List.take_nil] using ih []
      | cons task rest =>
          have unfolded : (task :: rest).flatMap (Task.tour cfg) =
              task :: (cfg.advance (task :: rest)).flatMap (Task.tour cfg) := by
            rw [List.flatMap_cons, Task.tour_eq_cons cfg task, advance, List.flatMap_append,
              List.cons_append]
          rw [run_cons, unfolded, List.take_succ_cons, List.flatMap_cons, printPieces_append,
            bind_assoc, Function.iterate_succ_apply, ← ih (cfg.advance (task :: rest)), advance]

theorem run_eq_write (cfg : Config) (tasks : List Task) :
    cfg.run tasks =
      write (cfg.piecesText ((tasks.flatMap (Task.tour cfg)).flatMap (Task.pieces cfg))) := by
  have ends : cfg.run [] = pure () := by rw [run]
  rw [cfg.run_eq_iterate (tasks.flatMap (Task.tour cfg)).length, List.take_length,
    advance_iterate_length, ends, printPieces_eq_write, bind_pure_unit]

/-- Visiting a node prints the markup it has at its place. -/
theorem run_visit_eq_write (cfg : Config) (node : Node) (place : Place) (dialect : Dialect) :
    cfg.run [.visit node place dialect] = write (cfg.markup dialect place node) := by
  have tour : ([Task.visit node place dialect].flatMap (Task.tour cfg)) =
      Task.nodeTour cfg dialect place node := by
    simp [Task.tour]
  rw [run_eq_write, tour, Task.flatMap_pieces_nodeTour, markup]

theorem printNode_eq_write (cfg : Config) (node : Node) :
    cfg.printNode node = write (cfg.markup .html (.alone node) node) :=
  cfg.run_visit_eq_write node (.alone node) .html

theorem render_eq_markup (cfg : Config) (node : Node) :
    cfg.render node = cfg.markup .html (.alone node) node := by
  rw [render, printNode_eq_write, toText_write]

/-- The walk over a tree does the tasks of its tour, each once and in order: after any number of
steps it has printed their pieces and stands at the next one, and after the last one it has none
left. On every sink it prints the markup of the tree. -/
theorem walk_follows_tour (cfg : Config) (node : Node) :
    (∀ n, (cfg.advance^[n] [.visit node (.alone node) .html]).head? =
      (Task.nodeTour cfg .html (.alone node) node)[n]?) ∧
    (∀ n, cfg.printNode node = (do
      cfg.printPieces (((Task.nodeTour cfg .html (.alone node) node).take n).flatMap
        (Task.pieces cfg))
      cfg.run (cfg.advance^[n] [.visit node (.alone node) .html]))) ∧
    cfg.advance^[(Task.nodeTour cfg .html (.alone node) node).length]
      [.visit node (.alone node) .html] = [] ∧
    cfg.printNode node = write (cfg.markup .html (.alone node) node) := by
  have tour : [Task.visit node (.alone node) .html].flatMap (Task.tour cfg) =
      Task.nodeTour cfg .html (.alone node) node := by
    simp [Task.tour]
  rw [← tour]
  refine ⟨?_, ?_, cfg.advance_iterate_length _, cfg.printNode_eq_write node⟩
  · intro n
    exact cfg.head?_advance_iterate n _
  · intro n
    exact cfg.run_eq_iterate n _

end Config

end HtmlPrinter
