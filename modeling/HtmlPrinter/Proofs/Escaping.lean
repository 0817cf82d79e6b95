import HtmlPrinter.Config.Basic
import HtmlPrinter.Proofs.BoundedSinks
import Mathlib.Data.String.Basic

/-!
# Three ways to escape

Escaping is said character by character and done run by run. A text is kept in bytes, though, and
a run is a slice of it between two byte positions: `Escaping.printSlices?` counts bytes, and fails
where a slice would begin or end inside a character. `printSlices?_eq_print` says that it never
does, and that it prints what the other two say. A text with nothing to escape is not written
anew, and that can be told from the result, since every reference is longer than its character.
-/

namespace HtmlPrinter

private theorem isValid_utf8Len {text : String} {front back : List Char}
    (h : text.toList = front ++ back) : String.Pos.Raw.IsValid text ⟨String.utf8Len front⟩ := by
  refine String.Pos.Raw.isValid_iff_exists_append.2
    ⟨String.ofList front, String.ofList back, ?_, (String.rawEndPos_ofList front).symm⟩
  rw [← String.toList_inj, h, ← String.ofList_append, String.toList_ofList]

theorem slice?_of_toList_eq {text : String} {front run back : List Char}
    (h : text.toList = front ++ run ++ back) :
    slice? text (String.utf8Len front) (String.utf8Len front + String.utf8Len run) =
      some (String.ofList run) := by
  have starts : String.Pos.Raw.IsValid text ⟨String.utf8Len front⟩ :=
    isValid_utf8Len (h.trans (List.append_assoc front run back))
  have stops : String.Pos.Raw.IsValid text ⟨String.utf8Len front + String.utf8Len run⟩ := by
    rw [← String.utf8Len_append]
    exact isValid_utf8Len h
  have parts : text = String.ofList (front ++ run ++ back) := by
    rw [← h, String.ofList_toList]
  rw [slice?, if_pos ⟨Nat.le_add_right _ _, starts, stops⟩, parts, String.extract_of_valid]

example : slice? "é<" 0 2 = some "é" ∧ slice? "é<" 1 3 = none ∧ slice? "é<" 3 4 = none := by
  decide +kernel

namespace Escaping

variable (e : Escaping)

private theorem printSlicesFrom?_eq_printRuns {text : String} {front run cs : List Char}
    (h : text.toList = front ++ run.reverse ++ cs) :
    e.printSlicesFrom? text (String.utf8Len front)
      (String.utf8Len front + String.utf8Len run.reverse) cs = some (e.printRuns run cs) := by
  -- `last` is the end of what is written, and `position` the end of the run behind that
  induction cs generalizing front run with
  | nil =>
      have size : text.utf8ByteSize = String.utf8Len front + String.utf8Len run.reverse := by
        rw [← String.utf8Len_toList, h, List.append_nil, String.utf8Len_append]
      rw [printSlicesFrom?, size, slice?_of_toList_eq h]
      rfl
  | cons c rest ih =>
      by_cases hc : e.escapes c = true
      · have split : text.toList = (front ++ run.reverse ++ [c]) ++ [].reverse ++ rest := by
          rw [h]
          simp
        have position : String.utf8Len front + String.utf8Len run.reverse + c.utf8Size =
            String.utf8Len (front ++ run.reverse ++ [c]) := by
          simp [Nat.add_assoc]
        have behind := ih split
        rw [List.reverse_nil, String.utf8Len_nil, Nat.add_zero] at behind
        rw [printSlicesFrom?, if_pos hc, slice?_of_toList_eq h, position, behind, printRuns,
          if_pos hc]
        rfl
      · have longer : text.toList = front ++ (c :: run).reverse ++ rest := by
          rw [h]
          simp
        have position : String.utf8Len front + String.utf8Len run.reverse + c.utf8Size =
            String.utf8Len front + String.utf8Len (c :: run).reverse := by
          simp [Nat.add_assoc]
        rw [printSlicesFrom?, if_neg hc, position, ih longer, printRuns, if_neg hc]

/-- Every slice that is printed begins and ends between characters, and slices are printed as
runs are. -/
theorem printSlices?_eq_print (text : String) : e.printSlices? text = some (e.print text) := by
  have whole : text.toList = [] ++ [].reverse ++ text.toList := rfl
  exact e.printSlicesFrom?_eq_printRuns whole

theorem length_escapedChar (c : Char) :
    (e.escapedChar c).length =
      if e.escapes c then (e.entities.referenceName c).length + 2 else 1 := by
  unfold escapedChar
  split
  · have marks : "&".length = 1 ∧ ";".length = 1 := ⟨rfl, rfl⟩
    rw [Entities.reference, String.length_append, String.length_append, marks.1, marks.2]
    omega
  · simp

/-- Every character that is escaped adds to the length, even if its name is empty. -/
theorem length_add_countP_le_length_escaped (s : String) :
    s.length + s.toList.countP e.escapes ≤ (e.escaped s).length := by
  have each : ∀ cs : List Char, cs.length + cs.countP e.escapes ≤ (e.escapedList cs).length := by
    intro cs
    induction cs with
    | nil => simp
    | cons c rest ih =>
        have first := e.length_escapedChar c
        rw [escapedList, String.length_append, List.length_cons, List.countP_cons]
        by_cases hc : e.escapes c = true
        · rw [if_pos hc] at first ⊢
          omega
        · rw [if_neg hc] at first ⊢
          omega
  rw [← String.length_toList]
  exact each s.toList

theorem needsEscape_eq_false_iff {s : String} :
    e.needsEscape s = false ↔ ∀ c ∈ s.toList, c ≠ '&' ∧ c ∉ e.forbidden := by
  simp [needsEscape, escapes]

theorem length_lt_length_escaped {s : String} (h : e.needsEscape s = true) :
    s.length < (e.escaped s).length := by
  have some_escaped : 0 < s.toList.countP e.escapes := by
    rw [List.countP_pos_iff]
    exact List.any_eq_true.1 h
  have := e.length_add_countP_le_length_escaped s
  omega

private theorem printTo_print (s : String) (sink : Sink) :
    (e.print s).printTo sink = (sink.fits (e.escaped s), sink.store (e.escaped s)) := by
  rw [print_eq_write, Sink.printTo_write]

private theorem isUnchanged_escape (s : String) : (e.escape s).isUnchanged = !e.needsEscape s := by
  cases h : e.needsEscape s <;> simp [escape, h, Escaped.isUnchanged]

end Escaping

/-- Says what escaping a text gives: the escaped text, which is the text itself exactly when there
is nothing to escape in it, and longer otherwise. -/
structure Escaped.IsOf (result : Escaped) (e : Escaping) (s : String) : Prop where
  text_eq : result.text = e.escaped s
  unchanged_iff_eq : result.isUnchanged = true ↔ result.text = s
  unchanged_iff_plain : result.isUnchanged = true ↔ ∀ c ∈ s.toList, c ≠ '&' ∧ c ∉ e.forbidden
  longer : result.isUnchanged = false → s.length < result.text.length

private theorem Escaping.isOf_escape (e : Escaping) (s : String) : (e.escape s).IsOf e s := by
  have longer : (e.escape s).isUnchanged = false → s.length < (e.escape s).text.length := by
    intro h
    rw [e.isUnchanged_escape, Bool.not_eq_false'] at h
    rw [e.text_escape]
    exact e.length_lt_length_escaped h
  refine ⟨e.text_escape s, ⟨?_, ?_⟩, ?_, longer⟩
  · intro h
    rw [e.isUnchanged_escape, Bool.not_eq_true'] at h
    simp [escape, h, Escaped.text]
  · intro h
    by_contra changed
    have := longer (Bool.eq_false_iff.2 changed)
    rw [h] at this
    omega
  · rw [e.isUnchanged_escape, Bool.not_eq_true', e.needsEscape_eq_false_iff]

/-- Slices, runs and characters give the same escaped text: what is printed to a sink with room for
`limit` characters is its first `limit` characters, without failure exactly if there are no more,
and without a bound it is all of them. What `escape` returns is that text as well, and the text
itself exactly when nothing in it has to be escaped. -/
theorem printSlices?_print_escape_agree (s : String) :
    (∀ e : Escaping, e.printSlices? s = some (e.print s) ∧ ∀ start,
      (∀ limit, (e.print s).printTo ⟨start, some limit⟩ =
        (decide ((e.escaped s).length ≤ limit),
          ⟨start ++ String.ofList ((e.escaped s).toList.take limit),
            some (limit - (e.escaped s).length)⟩)) ∧
      (e.print s).printTo ⟨start, none⟩ = (true, ⟨start ++ e.escaped s, none⟩)) ∧
    ∀ (cfg : Config) (place : Context), (cfg.escape place s).IsOf (cfg.escaping place) s := by
  refine ⟨fun e => ⟨e.printSlices?_eq_print s, fun start => ⟨fun limit => ?_, ?_⟩⟩, ?_⟩
  · rw [e.printTo_print]
    rfl
  · rw [e.printTo_print]
    rfl
  · intro cfg place
    exact (cfg.escaping place).isOf_escape s

end HtmlPrinter
