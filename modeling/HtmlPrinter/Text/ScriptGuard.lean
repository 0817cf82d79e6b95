import HtmlPrinter.Sink
import HtmlPrinter.Text.Slice

/-!
# Guarding script content

Script content ends at the first `</script`, whatever stands around it. The guard puts a backslash
between `<` and `/` there, which means the same in a script and ends nothing. `guarded` says so
character by character, and `print` copies whole runs to a sink; `print_eq_write` says that both
agree. `printSlices?` looks for the end tag in a window of eight bytes that goes on byte by byte.
-/

namespace HtmlPrinter

/-- Lowers a byte that is an ASCII capital and keeps every other byte. -/
def lowerByte (b : UInt8) : UInt8 := if 65 ≤ b ∧ b ≤ 90 then b + 32 else b

namespace ScriptGuard

def endTagMark : List Char := ['<', '/', 's', 'c', 'r', 'i', 'p', 't']

/-- Decides whether characters start with `</script`, up to the case of ASCII letters. -/
def startsEndTag : List Char → Bool
  | [] => false
  | c :: rest =>
      c == '<' && (rest.take 7).map Char.toLower == ['/', 's', 'c', 'r', 'i', 'p', 't']

def guardedList : List Char → List Char
  | [] => []
  | c :: rest =>
      if startsEndTag (c :: rest) then c :: '\\' :: guardedList rest else c :: guardedList rest

def guarded (s : String) : String := String.ofList (guardedList s.toList)

/-- Prints characters behind a run of copied ones, which is given in reverse order: a run is
written whole when a backslash or the end comes. -/
def printRuns (run : List Char) : List Char → Printer Unit
  | [] => write (String.ofList run.reverse)
  | c :: rest =>
      if startsEndTag (c :: rest) then do
        write (String.ofList run.reverse)
        write (String.ofList [c, '\\'])
        printRuns [] rest
      else printRuns (c :: run) rest

def print (s : String) : Printer Unit := printRuns [] s.toList

/-- Decides whether the eight bytes from a position on are `</script`, up to ASCII case. -/
def endTagAt (text : String) (position : Nat) : Bool :=
  (((utf8Bytes text).drop position).take 8).map lowerByte == endTagMark.map Char.toUInt8

/-- Prints the rest of a text from byte `position` on, with a slice in front of it from byte `last`
on that is still to be written. -/
def printSlicesFrom? (text : String) (last position : Nat) : Option (Printer Unit) :=
  if position + 8 ≤ text.utf8ByteSize then
    if endTagAt text position then do
      let plain ← slice? text last position
      let behind ← printSlicesFrom? text (position + 2) (position + 8)
      return do
        write plain
        write "<\\/"
        behind
    else printSlicesFrom? text last (position + 1)
  else do
    let plain ← slice? text last text.utf8ByteSize
    return write plain
termination_by text.utf8ByteSize - position

/-- Prints a text by slices of it, if all of them exist. -/
def printSlices? (text : String) : Option (Printer Unit) := printSlicesFrom? text 0 0

theorem printRuns_eq_write (run cs : List Char) :
    printRuns run cs = write (String.ofList (run.reverse ++ guardedList cs)) := by
  induction cs generalizing run with
  | nil => simp [printRuns, guardedList]
  | cons c rest ih =>
      by_cases h : startsEndTag (c :: rest) = true
      · rw [printRuns, if_pos h, ih, guardedList, if_pos h, ← write_append, ← write_append]
        congr 1
        simp [← String.toList_inj]
      · rw [printRuns, if_neg h, ih, guardedList, if_neg h]
        simp

theorem print_eq_write (s : String) : print s = write (guarded s) := by
  simp [print, guarded, printRuns_eq_write]

end ScriptGuard

end HtmlPrinter
