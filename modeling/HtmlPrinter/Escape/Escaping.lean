import HtmlPrinter.Escape.Reference
import HtmlPrinter.Sink
import HtmlPrinter.Text.Slice

/-!
# Escaping

A text is escaped by writing a reference for each ampersand and each forbidden character.
`escaped` says so character by character. `print` copies whole runs of plain characters to a
sink, and `escape` returns a text with nothing to escape as it is; `print_eq_write` and
`text_escape` say that both agree with `escaped`. `printSlices?` finds the runs by byte positions.
-/

namespace HtmlPrinter

/-- Describes how text is escaped: what may not stand literally, and which names are in use. -/
structure Escaping where
  forbidden : List Char
  entities : Entities := ∅
deriving DecidableEq, Repr

/-- Gives an escaped text and tells whether anything had to be escaped. -/
inductive Escaped where
  | unchanged (text : String)
  | changed (text : String)
deriving DecidableEq, Repr

namespace Escaped

def text : Escaped → String
  | unchanged text | changed text => text

def isUnchanged : Escaped → Bool
  | unchanged _ => true
  | changed _ => false

end Escaped

namespace Entities

def printReference (entities : Entities) (c : Char) : Printer Unit := do
  write "&"
  write (entities.referenceName c)
  write ";"

theorem printReference_eq_write (entities : Entities) (c : Char) :
    entities.printReference c = write (entities.reference c) := by
  simp [printReference, reference, write_append]

end Entities

namespace Escaping

def escapes (e : Escaping) (c : Char) : Bool := c == '&' || e.forbidden.contains c

def needsEscape (e : Escaping) (s : String) : Bool := s.toList.any e.escapes

def escapedChar (e : Escaping) (c : Char) : String :=
  if e.escapes c then e.entities.reference c else String.ofList [c]

def escapedList (e : Escaping) : List Char → String
  | [] => ""
  | c :: rest => e.escapedChar c ++ escapedList e rest

def escaped (e : Escaping) (s : String) : String := e.escapedList s.toList

/-- Prints characters behind a run of plain ones, which is given in reverse order: a run is
written whole when a character to escape or the end comes. -/
def printRuns (e : Escaping) (run : List Char) : List Char → Printer Unit
  | [] => write (String.ofList run.reverse)
  | c :: rest =>
      if e.escapes c then do
        write (String.ofList run.reverse)
        e.entities.printReference c
        printRuns e [] rest
      else printRuns e (c :: run) rest

def print (e : Escaping) (s : String) : Printer Unit := e.printRuns [] s.toList

/-- Prints the rest of a text from byte `position` on, with the plain characters in front of it
from byte `last` on: a slice of them is written when a character to escape or the end comes. -/
def printSlicesFrom? (e : Escaping) (text : String) (last position : Nat) :
    List Char → Option (Printer Unit)
  | [] => do
      let plain ← slice? text last text.utf8ByteSize
      return write plain
  | c :: rest =>
      if e.escapes c then do
        let plain ← slice? text last position
        let behind ← printSlicesFrom? e text (position + c.utf8Size) (position + c.utf8Size) rest
        return do
          write plain
          e.entities.printReference c
          behind
      else printSlicesFrom? e text last (position + c.utf8Size) rest

/-- Prints a text by slices of it, if all of them exist. -/
def printSlices? (e : Escaping) (text : String) : Option (Printer Unit) :=
  e.printSlicesFrom? text 0 0 text.toList

/-- Escapes a text, which is returned as it is when nothing has to be escaped. -/
def escape (e : Escaping) (s : String) : Escaped :=
  if e.needsEscape s then .changed (e.print s).toText else .unchanged s

theorem printRuns_eq_write (e : Escaping) (run cs : List Char) :
    e.printRuns run cs = write (String.ofList run.reverse ++ e.escapedList cs) := by
  induction cs generalizing run with
  | nil => simp [printRuns, escapedList]
  | cons c rest ih =>
      by_cases h : e.escapes c = true
      · simp [printRuns, escapedList, escapedChar, h, ih, write_append,
          Entities.printReference_eq_write]
      · have joined : String.ofList (c :: run).reverse ++ e.escapedList rest =
            String.ofList run.reverse ++ (String.ofList [c] ++ e.escapedList rest) := by
          rw [← String.toList_inj]
          simp
        rw [printRuns, if_neg h, ih, joined, escapedList, escapedChar, if_neg h]

theorem print_eq_write (e : Escaping) (s : String) : e.print s = write (e.escaped s) := by
  simp [print, escaped, printRuns_eq_write]

theorem escapedList_append (e : Escaping) (first second : List Char) :
    e.escapedList (first ++ second) = e.escapedList first ++ e.escapedList second := by
  induction first with
  | nil => simp [escapedList]
  | cons c rest ih => simp [escapedList, ih, String.append_assoc]

theorem escaped_append (e : Escaping) (s t : String) :
    e.escaped (s ++ t) = e.escaped s ++ e.escaped t := by
  rw [escaped, String.toList_append, escapedList_append, escaped, escaped]

theorem escapedList_of_plain {e : Escaping} {cs : List Char}
    (h : ∀ c ∈ cs, e.escapes c = false) : e.escapedList cs = String.ofList cs := by
  induction cs with
  | nil => rfl
  | cons c rest ih =>
      rw [escapedList, ih fun d hd => h d (List.mem_cons_of_mem c hd), escapedChar,
        h c List.mem_cons_self]
      simp

theorem escaped_eq_empty_iff {e : Escaping} {s : String} : e.escaped s = "" ↔ s = "" := by
  constructor
  · intro hempty
    cases hchars : s.toList with
    | nil => exact String.toList_eq_nil_iff.1 hchars
    | cons c rest =>
        rw [escaped, hchars, escapedList, escapedChar] at hempty
        split at hempty <;> simp [Entities.reference] at hempty
  · rintro rfl
    rfl

theorem text_escape (e : Escaping) (s : String) : (e.escape s).text = e.escaped s := by
  by_cases h : e.needsEscape s = true
  · simp [escape, h, Escaped.text, print_eq_write]
  · have plain : ∀ c ∈ s.toList, e.escapes c = false := by
      simpa [needsEscape] using h
    simp [escape, h, Escaped.text, escaped, escapedList_of_plain plain]

end Escaping

end HtmlPrinter
