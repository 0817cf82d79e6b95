/-!
# Maps in order of arrival

A map that lists its keys in the order in which they first arrived. Writing to a present key
changes the value in place; writing to an absent key adds it at the end. The view of a map is
its list of `entries`, and every operation has one equation through `get?` and one through `keys`.
-/

namespace HtmlPrinter

/-- Holds keys with their values in the order in which the keys first arrived. -/
@[ext] structure OrderedMap (κ ν : Type) where
  entries : List (κ × ν)
  /-- No key occurs twice. -/
  nodup : (entries.map Prod.fst).Nodup := by decide
deriving DecidableEq, Repr

namespace OrderedMap

variable {κ ν : Type}

instance : EmptyCollection (OrderedMap κ ν) := ⟨⟨[], List.nodup_nil⟩⟩

instance : Inhabited (OrderedMap κ ν) := ⟨∅⟩

def keys (m : OrderedMap κ ν) : List κ := m.entries.map Prod.fst

def size (m : OrderedMap κ ν) : Nat := m.entries.length

def isEmpty (m : OrderedMap κ ν) : Bool := m.entries.isEmpty

theorem nodup_keys (m : OrderedMap κ ν) : m.keys.Nodup := m.nodup

theorem nodup_concat {keys : List κ} {key : κ} (h : keys.Nodup) (hnew : key ∉ keys) :
    (keys ++ [key]).Nodup :=
  (List.perm_append_singleton key keys).nodup_iff.2 (List.nodup_cons.2 ⟨hnew, h⟩)

variable [DecidableEq κ]

def get? (m : OrderedMap κ ν) (key : κ) : Option ν :=
  (m.entries.find? (fun entry => decide (entry.1 = key))).map Prod.snd

def contains (m : OrderedMap κ ν) (key : κ) : Bool := m.keys.contains key

@[simp] theorem contains_iff {m : OrderedMap κ ν} {key : κ} :
    m.contains key = true ↔ key ∈ m.keys := by
  simp [contains]

def put (key : κ) (value : ν) : List (κ × ν) → List (κ × ν)
  | [] => [(key, value)]
  | entry :: rest =>
      if entry.1 = key then (key, value) :: rest else entry :: put key value rest

theorem map_fst_put (entries : List (κ × ν)) (key : κ) (value : ν) :
    (put key value entries).map Prod.fst =
      if key ∈ entries.map Prod.fst then entries.map Prod.fst
      else entries.map Prod.fst ++ [key] := by
  induction entries with
  | nil => simp [put]
  | cons entry rest ih =>
      by_cases hk : entry.1 = key
      · simp [put, hk]
      · have hk' : ¬ key = entry.1 := fun e => hk e.symm
        by_cases hm : key ∈ rest.map Prod.fst <;> simp_all [put]

/-- Gives a key a value: a present key keeps its place, an absent one is added at the end. -/
def insert (m : OrderedMap κ ν) (key : κ) (value : ν) : OrderedMap κ ν where
  entries := put key value m.entries
  nodup := by
    rw [map_fst_put]
    split
    · exact m.nodup
    · next hnew => exact nodup_concat m.nodup hnew

def insertIfNew (m : OrderedMap κ ν) (key : κ) (value : ν) : OrderedMap κ ν :=
  if hkey : m.contains key then m
  else
    { entries := m.entries ++ [(key, value)]
      nodup := by
        rw [List.map_append]
        exact nodup_concat m.nodup fun hmem => hkey (contains_iff.2 hmem) }

def insertMany (m : OrderedMap κ ν) (pairs : List (κ × ν)) : OrderedMap κ ν :=
  pairs.foldl (fun m pair => m.insert pair.1 pair.2) m

/-- Collects pairs from left to right, so that the first value of a key stays. -/
def collect (pairs : List (κ × ν)) : OrderedMap κ ν :=
  pairs.foldl (fun m pair => m.insertIfNew pair.1 pair.2) ∅

@[simp] theorem get?_empty (key : κ) : (∅ : OrderedMap κ ν).get? key = none := rfl

theorem find?_put (entries : List (κ × ν)) (key other : κ) (value : ν) :
    (put key value entries).find? (fun entry => decide (entry.1 = other)) =
      if key = other then some (key, value)
      else entries.find? (fun entry => decide (entry.1 = other)) := by
  induction entries with
  | nil => by_cases h : key = other <;> simp [put, h]
  | cons entry rest ih =>
      by_cases hk : entry.1 = key
      · by_cases ho : key = other <;> simp [put, hk, ho]
      · by_cases he : entry.1 = other
        · subst he
          have ho : ¬ key = entry.1 := fun h => hk h.symm
          simp [put, hk, ho]
        · simp [put, hk, he, ih]

theorem get?_insert (m : OrderedMap κ ν) (key other : κ) (value : ν) :
    (m.insert key value).get? other = if key = other then some value else m.get? other := by
  by_cases h : key = other <;> simp [get?, insert, find?_put, h]

theorem get?_eq_none_iff {m : OrderedMap κ ν} {key : κ} : m.get? key = none ↔ key ∉ m.keys := by
  rw [get?, Option.map_eq_none_iff, List.find?_eq_none, keys]
  simp only [List.mem_map, not_exists, not_and, decide_eq_true_eq]

theorem contains_eq_isSome_get? (m : OrderedMap κ ν) (key : κ) :
    m.contains key = (m.get? key).isSome := by
  rw [Bool.eq_iff_iff, contains_iff, Option.isSome_iff_ne_none, ne_eq, get?_eq_none_iff,
    Classical.not_not]

theorem get?_insertIfNew (m : OrderedMap κ ν) (key other : κ) (value : ν) :
    (m.insertIfNew key value).get? other =
      if key = other ∧ key ∉ m.keys then some value else m.get? other := by
  unfold insertIfNew
  by_cases hkey : key ∈ m.keys
  · simp [hkey]
  · rw [dif_neg (by simpa using hkey)]
    by_cases hother : key = other
    · subst hother
      have absent := get?_eq_none_iff.2 hkey
      rw [get?, Option.map_eq_none_iff] at absent
      simp [get?, absent, hkey]
    · simp [get?, hother]

theorem insertMany_append (m : OrderedMap κ ν) (first second : List (κ × ν)) :
    m.insertMany (first ++ second) = (m.insertMany first).insertMany second := by
  simp [insertMany]

/-- Of the values for one key, the last stays. -/
theorem get?_insertMany (m : OrderedMap κ ν) (pairs : List (κ × ν)) (key : κ) :
    (m.insertMany pairs).get? key =
      ((pairs.filter fun pair => decide (pair.1 = key)).getLast?.map Prod.snd).or
        (m.get? key) := by
  induction pairs generalizing m with
  | nil => rfl
  | cons pair rest ih =>
      have step : m.insertMany (pair :: rest) = (m.insert pair.1 pair.2).insertMany rest := rfl
      rw [step, ih, get?_insert]
      by_cases hkey : pair.1 = key
      · rw [if_pos hkey, List.filter_cons_of_pos (by simpa using hkey), List.getLast?_cons]
        cases (rest.filter fun pair => decide (pair.1 = key)).getLast? <;> rfl
      · rw [if_neg hkey, List.filter_cons_of_neg (by simpa using hkey)]

theorem keys_insert (m : OrderedMap κ ν) (key : κ) (value : ν) :
    (m.insert key value).keys = if key ∈ m.keys then m.keys else m.keys ++ [key] :=
  map_fst_put m.entries key value

theorem keys_insertIfNew (m : OrderedMap κ ν) (key : κ) (value : ν) :
    (m.insertIfNew key value).keys = if key ∈ m.keys then m.keys else m.keys ++ [key] := by
  unfold insertIfNew
  by_cases h : key ∈ m.keys
  · simp [h]
  · rw [dif_neg (by simpa using h), if_neg h]
    simp [keys]

end OrderedMap

end HtmlPrinter
