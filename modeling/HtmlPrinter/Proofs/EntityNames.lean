import HtmlPrinter.Proofs.References

/-!
# Reading configured names

Users choose the names of references, and the forbidden characters may be any, also those that
references are made of. An entry for the ampersand is never used. If the names of the other
characters can be told apart (`Entities.Apart`), the escaped text is read back as the text,
whatever is forbidden and whatever the text looks like.
-/

namespace HtmlPrinter

namespace Entities

/-- The names a reader has to know: an entry for the ampersand leaves its name to others. -/
def named (entities : Entities) : Entities where
  entries := entities.entries.filter fun entry => entry.1 != '&'
  nodup := entities.nodup.sublist (List.filter_sublist.map Prod.fst)

/-- Says that the names in use are told apart from each other, from the name of the ampersand and
from numerals, and that each ends at its semicolon. -/
structure Apart (entities : Entities) : Prop where
  nodup : (entities.named.entries.map Prod.snd).Nodup
  ends : ∀ entry ∈ entities.named.entries, ';' ∉ entry.2.toList
  notAmpersand : ∀ entry ∈ entities.named.entries, entry.2 ≠ "amp"
  notNumeral : ∀ entry ∈ entities.named.entries, entry.2.toList.head? ≠ some '#'

theorem get?_named (entities : Entities) {c : Char} (h : c ≠ '&') :
    entities.named.get? c = entities.get? c := by
  have same : (fun entry : Char × String => decide (entry.1 != '&' ∧ decide (entry.1 = c))) =
      fun entry => decide (entry.1 = c) := by
    funext entry
    by_cases hc : entry.1 = c
    · simp [hc, h]
    · simp [hc]
  rw [OrderedMap.get?, named, List.find?_filter, same, OrderedMap.get?]

private theorem referenceName_named (entities : Entities) (c : Char) :
    entities.named.referenceName c = entities.referenceName c := by
  by_cases h : c = '&'
  · rw [referenceName, referenceName, if_pos h, if_pos h]
  · rw [referenceName, referenceName, get?_named entities h]

private theorem find?_name {entries : List (Char × String)} (hnodup : (entries.map Prod.snd).Nodup)
    {entry : Char × String} (hmem : entry ∈ entries) :
    entries.find? (fun other => other.2.toList == entry.2.toList) = some entry := by
  induction entries with
  | nil => cases hmem
  | cons first rest ih =>
      rw [List.map_cons, List.nodup_cons] at hnodup
      rcases List.mem_cons.1 hmem with rfl | later
      · simp
      · have differs : first.2 ≠ entry.2 := fun h =>
          hnodup.1 (h ▸ List.mem_map.2 ⟨entry, later, rfl⟩)
        rw [List.find?_cons_of_neg (by simpa [String.toList_inj] using differs), ih hnodup.2 later]

private theorem referent?_of_name (entities : Entities) {name : String} (hamp : name ≠ "amp")
    (hnum : name.toList.head? ≠ some '#') :
    entities.referent? name.toList =
      (entities.entries.find? fun entry => entry.2.toList == name.toList).map Prod.fst := by
  unfold referent?
  split
  · next h => exact absurd (String.toList_inj.1 h) hamp
  · next h => simp [h] at hnum
  · rfl

private theorem Apart.legible_named {entities : Entities} (h : entities.Apart) :
    entities.named.Legible := by
  refine legible_of_names fun c name _ hget => ?_
  have mem : (c, name) ∈ entities.named.entries := mem_of_get? hget
  refine ⟨?_, h.ends _ mem⟩
  rw [referent?_of_name _ (h.notAmpersand _ mem) (h.notNumeral _ mem), find?_name h.nodup mem,
    Option.map_some]

end Entities

namespace Escaping

theorem escaped_named (e : Escaping) (s : String) :
    { e with entities := e.entities.named }.escaped s = e.escaped s := by
  have each : ∀ cs : List Char,
      { e with entities := e.entities.named }.escapedList cs = e.escapedList cs := by
    intro cs
    induction cs with
    | nil => rfl
    | cons c rest ih =>
        rw [escapedList, escapedList, ih, escapedChar, escapedChar, Entities.reference,
          Entities.reference, Entities.referenceName_named]
        rfl
  exact each s.toList

/-- Escaping a text to a sink without end writes something that is read back as the text, however
many references the text itself seems to contain. -/
theorem decode_print (e : Escaping) (h : e.entities.Apart) (s content : String) :
    ∃ written, (e.print s).printTo ⟨content, none⟩ = (true, ⟨content ++ written, none⟩) ∧
      e.entities.named.decode written.toList = s.toList := by
  refine ⟨e.escaped s, ?_, ?_⟩
  · rw [print_eq_write]
    rfl
  · have legible : ({ e with entities := e.entities.named } : Escaping).entities.Legible :=
      h.legible_named
    rw [← escaped_named]
    exact decode_escaped legible s

/-- Forbids what references are made of. The entry for the ampersand has the name of another one,
and one name is empty. -/
def unruly : Escaping where
  forbidden := ['<', '#', ';', 'a', '3', Char.ofNat 0]
  entities := { entries := [('&', "lt"), ('<', "lt"), ('#', ""), ('3', "x3")] }

/-- A text of references, escaped where its references have their characters. -/
theorem decode_print_unruly :
    (unruly.print "&a;<&#x3C;\x00").printTo ⟨"<p>", none⟩ =
        (true, ⟨"<p>&amp;&#x61;&#x3B;&lt;&amp;&;x&x3;C&#x3B;&#x0;", none⟩) ∧
      unruly.entities.named.decode "&amp;&#x61;&#x3B;&lt;&amp;&;x&x3;C&#x3B;&#x0;".toList =
        "&a;<&#x3C;\x00".toList := by
  have apart : unruly.entities.Apart :=
    { nodup := by decide
      ends := by decide
      notAmpersand := by decide
      notNumeral := by decide }
  have evaluated : (unruly.print "&a;<&#x3C;\x00").printTo ⟨"<p>", none⟩ =
      (true, ⟨"<p>&amp;&#x61;&#x3B;&lt;&amp;&;x&x3;C&#x3B;&#x0;", none⟩) := by decide +kernel
  obtain ⟨written, printed, read⟩ := decode_print unruly apart "&a;<&#x3C;\x00" "<p>"
  have text : "<p>" ++ written = "<p>" ++ "&amp;&#x61;&#x3B;&lt;&amp;&;x&x3;C&#x3B;&#x0;" := by
    rw [printed] at evaluated
    exact congrArg (fun outcome => outcome.2.content) evaluated
  rw [String.append_right_inj] at text
  subst text
  exact ⟨evaluated, read⟩

end Escaping

end HtmlPrinter
