import HtmlPrinter.Piece

/-!
# The walk over a tree

A tree is printed from a list of tasks: visit a node, or leave an element whose content is
printed. A task prints at most one piece and is replaced by the tasks it gives rise to, so that
the depth of a tree costs memory only. Every step makes the `weight` of the list smaller.
-/

namespace HtmlPrinter

/-- Represents one thing that is still to be done. -/
inductive Task where
  | visit (node : Node) (place : Place) (dialect : Dialect)
  /-- Print the end tag of an element, given in its own dialect. -/
  | leave (element : Element) (place : Place) (dialect : Dialect)

namespace Task

def visitsFrom (parent : Option String) (siblings : List Node) (dialect : Dialect) (index : Nat) :
    List Node → List Task
  | [] => []
  | node :: rest =>
      visit node ⟨parent, siblings, index⟩ dialect ::
        visitsFrom parent siblings dialect (index + 1) rest

def visits (parent : Option String) (children : List Node) (dialect : Dialect) : List Task :=
  visitsFrom parent children dialect 0 children

def pieces (cfg : Config) : Task → List Piece
  | visit (.root _) _ _ => []
  | visit (.element e) place dialect => cfg.startPieces (dialect.enter e.tag) e place
  | visit (.text content) place _ => [.text place.parent content]
  | visit (.comment content) _ _ => [.comment content]
  | visit (.doctype name) _ _ => [.doctype name]
  | visit (.raw markup) _ _ => [.raw markup]
  | leave e place dialect => cfg.endPieces dialect e place

def next (cfg : Config) : Task → List Task
  | visit (.root children) _ dialect => visits none children dialect
  | visit (.element e) place dialect =>
      let inner := dialect.enter e.tag
      if cfg.isLeaf inner e then []
      else visits (some e.tag) e.children inner ++ [leave e place inner]
  | _ => []

/-- Weighs a task: twice the nodes to visit, so that leaving an element weighs less. -/
def weight : Task → Nat
  | visit node _ _ => 2 * node.size
  | leave _ _ _ => 1

def totalWeight : List Task → Nat
  | [] => 0
  | task :: rest => task.weight + totalWeight rest

theorem totalWeight_append (first second : List Task) :
    totalWeight (first ++ second) = totalWeight first + totalWeight second := by
  induction first with
  | nil => simp [totalWeight]
  | cons task rest ih => simp [totalWeight, ih, Nat.add_assoc]

theorem totalWeight_visitsFrom (parent : Option String) (siblings : List Node) (dialect : Dialect)
    (index : Nat) (nodes : List Node) :
    totalWeight (visitsFrom parent siblings dialect index nodes) = 2 * Node.sizeList nodes := by
  induction nodes generalizing index with
  | nil => rfl
  | cons node rest ih =>
      simp only [visitsFrom, totalWeight, weight, ih, Node.sizeList]
      omega

theorem totalWeight_next_lt (cfg : Config) (task : Task) :
    totalWeight (task.next cfg) < task.weight := by
  cases task with
  | leave e place dialect => simp [next, totalWeight, weight]
  | visit node place dialect =>
      cases node with
      | root children =>
          simp only [next, visits, totalWeight_visitsFrom, weight, Node.size]
          omega
      | element e =>
          simp only [next, weight, Node.size_element]
          split
          · simp only [totalWeight]
            omega
          · simp only [totalWeight_append, visits, totalWeight_visitsFrom, totalWeight, weight]
            omega
      | _ => simp [next, totalWeight, weight, Node.size]

end Task

namespace Config

def printPieces (cfg : Config) : List Piece → Printer Unit
  | [] => pure ()
  | piece :: rest => do
      cfg.printPiece piece
      cfg.printPieces rest

def run (cfg : Config) : List Task → Printer Unit
  | [] => pure ()
  | task :: rest => do
      cfg.printPieces (task.pieces cfg)
      cfg.run (task.next cfg ++ rest)
termination_by tasks => Task.totalWeight tasks
decreasing_by
  have := Task.totalWeight_next_lt cfg task
  simp only [Task.totalWeight_append, Task.totalWeight]
  omega

theorem run_cons (cfg : Config) (task : Task) (rest : List Task) :
    cfg.run (task :: rest) = (do
      cfg.printPieces (task.pieces cfg)
      cfg.run (task.next cfg ++ rest)) := by
  rw [run]

theorem printPieces_eq_write (cfg : Config) (ps : List Piece) :
    cfg.printPieces ps = write (cfg.piecesText ps) := by
  induction ps with
  | nil => simp [printPieces, piecesText]
  | cons piece rest ih =>
      rw [printPieces, printPiece_eq_write, ih, piecesText, write_append]

theorem printPieces_append (cfg : Config) (first second : List Piece) :
    cfg.printPieces (first ++ second) = (do
      cfg.printPieces first
      cfg.printPieces second) := by
  simp only [printPieces_eq_write, piecesText_append, write_append]

end Config

end HtmlPrinter
