/-!
# Sinks

A sink collects text, either without end or up to a number of characters. A write that does not
fit stores the characters that do and fails. `write_append` says that a text may be written in
one piece or in two: the sink and the outcome are the same.
-/

namespace HtmlPrinter

/-- Collects text; `room` is the number of characters it still takes, if that is bounded. -/
structure Sink where
  content : String := ""
  room : Option Nat := none
deriving DecidableEq, Repr, Inhabited

inductive Full where
  | full
deriving DecidableEq, Repr

abbrev Printer := EStateM Full Sink

/-- Writes a text: all of it when it fits, and otherwise what fits before failing. -/
def write (s : String) : Printer Unit := fun sink =>
  match sink.room with
  | none => .ok () ⟨sink.content ++ s, none⟩
  | some room =>
      if s.length ≤ room then .ok () ⟨sink.content ++ s, some (room - s.length)⟩
      else .error .full ⟨sink.content ++ String.ofList (s.toList.take room), some 0⟩

namespace Printer

def printTo (p : Printer Unit) (sink : Sink) : Bool × Sink :=
  match p sink with
  | .ok _ after => (true, after)
  | .error _ after => (false, after)

def toText (p : Printer Unit) : String := (p.printTo {}).2.content

/-- Prints one after another to the same sink, going on after a failure; gives each outcome with
the sink as it is then. -/
def printEach (ps : List (Printer Unit)) (sink : Sink) : List (Bool × Sink) :=
  match ps with
  | [] => []
  | p :: rest =>
      let outcome := p.printTo sink
      outcome :: printEach rest outcome.2

end Printer

@[simp] theorem write_empty : write "" = pure () := by
  funext sink
  rcases sink with ⟨content, _ | room⟩ <;> simp [write] <;> rfl

theorem write_append (s t : String) : write (s ++ t) = (do write s; write t) := by
  funext sink
  rcases sink with ⟨content, _ | room⟩
  · simp [write, bind, EStateM.bind, String.append_assoc]
  · by_cases hs : s.length ≤ room
    · by_cases ht : t.length ≤ room - s.length
      · have hst : s.length + t.length ≤ room := by omega
        simp [write, bind, EStateM.bind, hs, ht, hst, String.append_assoc, Nat.sub_sub]
      · have hst : ¬ s.length + t.length ≤ room := by omega
        have hs' : s.toList.length ≤ room := by rw [String.length_toList]; exact hs
        simp [write, bind, EStateM.bind, hs, ht, hst, String.append_assoc, List.take_append,
          List.take_of_length_le hs', String.length_toList]
    · have hst : ¬ s.length + t.length ≤ room := by omega
      have hs' : room - s.toList.length = 0 := by
        simp only [String.length_toList]
        omega
      simp [write, bind, EStateM.bind, hs, hst, List.take_append, hs']

@[simp] theorem toText_write (s : String) : (write s).toText = s := by
  simp [Printer.toText, Printer.printTo, write]

end HtmlPrinter
