import HtmlPrinter.Tree.Basic
import Mathlib.Data.Finset.Card

/-!
# The history of a map

What is in a map, and in which order, is told by the writes since the map was last empty: its keys
are those of the writes, in the order of the first write to each, and the value of a key is that of
the last write to it that took effect. `OrderedMap.Records` says so, every write keeps it
(`Records.write`), and so it holds after any edits to the attributes of an element
(`Attributes.records_editAll`).
-/

namespace HtmlPrinter

/-- Describes one write to a map. -/
structure Write (κ ν : Type) where
  key : κ
  value : ν
  /-- A key that is there already keeps its value. -/
  onlyIfNew : Bool
deriving DecidableEq, Repr

namespace Write

variable {κ ν : Type} [DecidableEq κ]

/-- Decides whether a write takes effect behind some earlier ones. -/
def takesEffect (earlier : List (Write κ ν)) (w : Write κ ν) : Bool :=
  !w.onlyIfNew || !(earlier.map key).contains w.key

/-- Keeps the writes that take effect behind some earlier ones and behind each other. -/
def effective (earlier : List (Write κ ν)) : List (Write κ ν) → List (Write κ ν)
  | [] => []
  | w :: rest =>
      if w.takesEffect earlier then w :: effective (earlier ++ [w]) rest
      else effective (earlier ++ [w]) rest

/-- Gives the value of the last write to a key that takes effect. -/
def lastValue? (log : List (Write κ ν)) (key : κ) : Option ν :=
  ((effective [] log).filter fun w => decide (w.key = key)).getLast?.map value

private theorem effective_concat (earlier log : List (Write κ ν)) (w : Write κ ν) :
    effective earlier (log ++ [w]) =
      effective earlier log ++ if w.takesEffect (earlier ++ log) then [w] else [] := by
  induction log generalizing earlier with
  | nil => simp [effective]
  | cons first rest ih =>
      rw [List.cons_append, effective, effective, ih, List.append_assoc, List.singleton_append]
      split <;> rfl

private theorem lastValue?_concat (log : List (Write κ ν)) (w : Write κ ν) (key : κ) :
    lastValue? (log ++ [w]) key =
      if w.takesEffect log ∧ w.key = key then some w.value else lastValue? log key := by
  rw [lastValue?, effective_concat, List.nil_append, List.filter_append]
  by_cases heffect : w.takesEffect log = true
  · by_cases hkey : w.key = key
    · simp [heffect, hkey]
    · simp [heffect, hkey, lastValue?]
  · simp [heffect, lastValue?]

end Write

namespace OrderedMap

variable {κ ν : Type} [DecidableEq κ]

private theorem eraseDups_concat (keys : List κ) (key : κ) :
    (keys ++ [key]).eraseDups =
      if key ∈ keys then keys.eraseDups else keys.eraseDups ++ [key] := by
  rw [List.eraseDups_append]
  by_cases hkey : key ∈ keys <;> simp [List.removeAll, List.eraseDups_cons, hkey]

def write (m : OrderedMap κ ν) (w : Write κ ν) : OrderedMap κ ν :=
  if w.onlyIfNew then m.insertIfNew w.key w.value else m.insert w.key w.value

private theorem keys_write (m : OrderedMap κ ν) (w : Write κ ν) :
    (m.write w).keys = if w.key ∈ m.keys then m.keys else m.keys ++ [w.key] := by
  unfold write
  split
  · exact keys_insertIfNew m w.key w.value
  · exact keys_insert m w.key w.value

private theorem get?_write (m : OrderedMap κ ν) (w : Write κ ν) (key : κ) :
    (m.write w).get? key =
      if (w.onlyIfNew = false ∨ w.key ∉ m.keys) ∧ w.key = key then some w.value
      else m.get? key := by
  unfold write
  cases w.onlyIfNew with
  | false => simp [get?_insert]
  | true => simp [get?_insertIfNew, and_comm]

private theorem write_elsewhere (m : OrderedMap κ ν) (w : Write κ ν) :
    m.keys <+: (m.write w).keys ∧ ∀ key, key ≠ w.key → (m.write w).get? key = m.get? key := by
  constructor
  · rw [keys_write]
    split
    · exact List.prefix_rfl
    · exact List.prefix_append _ _
  · intro key hkey
    rw [get?_write, if_neg fun hwritten => hkey hwritten.2.symm]

/-- Says that a map has the keys and the values of the writes to it since it was empty. -/
structure Records (m : OrderedMap κ ν) (log : List (Write κ ν)) : Prop where
  nodup : m.keys.Nodup
  /-- The keys stand in the order in which they were first written. -/
  keys : m.keys = (log.map Write.key).eraseDups
  get? : ∀ key, m.get? key = Write.lastValue? log key

namespace Records

variable {m : OrderedMap κ ν} {log : List (Write κ ν)}

theorem empty : (∅ : OrderedMap κ ν).Records [] where
  nodup := nodup_keys ∅
  keys := rfl
  get? _ := rfl

theorem mem_keys_iff (h : m.Records log) (key : κ) : key ∈ m.keys ↔ key ∈ log.map Write.key := by
  rw [h.keys, List.mem_eraseDups]

theorem size_eq_card (h : m.Records log) : m.size = (log.map Write.key).toFinset.card := by
  have sameKeys : m.keys.toFinset = (log.map Write.key).toFinset := by
    ext key
    rw [List.mem_toFinset, List.mem_toFinset, h.mem_keys_iff]
  calc
    m.size = m.keys.length := (List.length_map _).symm
    _ = m.keys.toFinset.card := (List.toFinset_card_of_nodup h.nodup).symm
    _ = (log.map Write.key).toFinset.card := congrArg _ sameKeys

theorem write (h : m.Records log) (w : Write κ ν) : (m.write w).Records (log ++ [w]) where
  nodup := (m.write w).nodup_keys
  keys := by
    rw [keys_write, List.map_append, List.map_singleton, eraseDups_concat, ← h.keys]
    simp only [h.mem_keys_iff]
  get? key := by
    have effect : w.takesEffect log = true ↔ w.onlyIfNew = false ∨ w.key ∉ m.keys := by
      rw [h.mem_keys_iff]
      simp [Write.takesEffect]
    rw [get?_write, Write.lastValue?_concat, h.get?]
    simp only [effect]

private theorem foldl_write (h : m.Records log) (ws : List (Write κ ν)) :
    (ws.foldl OrderedMap.write m).Records (log ++ ws) := by
  induction ws generalizing m log with
  | nil => simpa using h
  | cons w rest ih => simpa using ih (h.write w)

end Records

end OrderedMap

namespace Attributes

namespace Edit

/-- Lists what an edit writes. -/
def writes : Edit → List (Write String Value)
  | .clear => []
  | .collect pairs => pairs.map fun pair => ⟨pair.1, pair.2, true⟩
  | .set name value => [⟨name, value, false⟩]
  | .setIfMissing name value => [⟨name, value, true⟩]

def startsOver : Edit → Bool
  | .clear | .collect _ => true
  | .set _ _ | .setIfMissing _ _ => false

/-- Adds what an edit writes to what was written before, which is forgotten when it starts over. -/
def extend (log : List (Write String Value)) (edit : Edit) : List (Write String Value) :=
  (if edit.startsOver then [] else log) ++ edit.writes

/-- Lists what edits write from the last start on. -/
def log (edits : List Edit) : List (Write String Value) := edits.foldl extend []

end Edit

/-- Every edit makes its writes, behind the earlier ones or to an empty map. -/
theorem edit_eq_foldl_write (attrs : Attributes) (edit : Edit) :
    attrs.edit edit =
      edit.writes.foldl OrderedMap.write (if edit.startsOver then ∅ else attrs) := by
  cases edit with
  | collect pairs =>
      rw [Edit.writes, List.foldl_map]
      rfl
  | _ => rfl

theorem records_edit {attrs : Attributes} {log : List (Write String Value)}
    (h : attrs.Records log) (edit : Edit) : (attrs.edit edit).Records (edit.extend log) := by
  rw [edit_eq_foldl_write, Edit.extend]
  cases edit.startsOver with
  | false => exact h.foldl_write edit.writes
  | true => exact OrderedMap.Records.empty.foldl_write edit.writes

private theorem records_foldl_edit {attrs : Attributes} {log : List (Write String Value)}
    (h : attrs.Records log) (edits : List Edit) :
    (attrs.editAll edits).Records (edits.foldl Edit.extend log) := by
  induction edits generalizing attrs log with
  | nil => exact h
  | cons edit rest ih => exact ih (records_edit h edit)

end Attributes

/-- Sets attributes of an element one after another. -/
def Element.setAttrs (e : Element) (pairs : List (String × Value)) : Element :=
  pairs.foldl (fun e pair => e.setAttr pair.1 pair.2) e

private theorem Element.attrs_setAttrs (e : Element) (pairs : List (String × Value)) :
    (e.setAttrs pairs).attrs = e.attrs.editAll (pairs.map fun pair => .set pair.1 pair.2) := by
  induction pairs generalizing e with
  | nil => rfl
  | cons pair rest ih => exact ih (e.setAttr pair.1 pair.2)

namespace Attributes

/-- At every point of any history the attributes are what was written since they were last started
over: no name twice, in the order of the first writes, with the values of the last writes in effect.
A single write leaves the places of all names and the values of all other names alone. Setting
attributes of an element adds to their history. -/
theorem records_editAll (edits : List Edit) :
    let attrs : Attributes := Attributes.editAll ∅ edits
    attrs.Records (Edit.log edits) ∧
      (∀ name, attrs.contains name = (attrs.get? name).isSome) ∧
      attrs.size = ((Edit.log edits).map Write.key).toFinset.card ∧
      (∀ name value, ∀ edit ∈ [Edit.set name value, Edit.setIfMissing name value],
        attrs.keys <+: (attrs.edit edit).keys ∧
          ∀ other, other ≠ name → (attrs.edit edit).get? other = attrs.get? other) ∧
      ∀ tag children pairs, ((Element.mk tag attrs children).setAttrs pairs).attrs =
        Attributes.editAll ∅ (edits ++ pairs.map fun pair => .set pair.1 pair.2) := by
  intro attrs
  have records : attrs.Records (Edit.log edits) :=
    records_foldl_edit OrderedMap.Records.empty edits
  refine ⟨records, attrs.contains_eq_isSome_get?, records.size_eq_card, ?_, ?_⟩
  · intro name value edit hedit
    simp only [List.mem_cons, List.not_mem_nil, or_false] at hedit
    rcases hedit with rfl | rfl
    · exact attrs.write_elsewhere ⟨name, value, false⟩
    · exact attrs.write_elsewhere ⟨name, value, true⟩
  · intro tag children pairs
    rw [Element.attrs_setAttrs, editAll_append]

/-- A history that starts over from a name given twice. -/
theorem records_editAll_restart :
    let edits : List Edit :=
      [.set "id" (.text "a"), .collect [("class", .text "b"), ("class", .text "c")],
        .setIfMissing "id" (.text "d"), .setIfMissing "class" (.flag false)]
    let attrs : Attributes := Attributes.editAll ∅ edits
    attrs.entries = [("class", .text "b"), ("id", .text "d")] ∧
      attrs.get? "class" = Write.lastValue? (Edit.log edits) "class" ∧
      (attrs.edit (.set "class" (.text "e"))).get? "id" = attrs.get? "id" := by
  intro edits attrs
  obtain ⟨records, -, -, elsewhere, -⟩ := records_editAll edits
  have other := (elsewhere "class" (.text "e") (.set "class" (.text "e")) List.mem_cons_self).2
  exact ⟨by decide, records.get? "class", other "id" (by decide)⟩

end Attributes

end HtmlPrinter
