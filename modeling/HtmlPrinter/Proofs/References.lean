import HtmlPrinter.Escape.Escaping

/-!
# Reading references

`Entities.decode` reads a text in which characters may be written as references. It takes each
ampersand that starts a reference together with the next semicolon for the character meant, and
every other character for itself. When each reference that can be written names its own character
(`Entities.Legible`), decoding undoes escaping, whatever the forbidden characters are.
-/

namespace HtmlPrinter

namespace Hexadecimal

def isDigit (c : Char) : Bool := c.isDigit || (c.isUpper && c ≤ 'F')

def isNumeral (cs : List Char) : Bool := !cs.isEmpty && cs.all isDigit

private theorem isDigit_digit {n : Nat} (h : n < 16) : isDigit (digit n) = true := by
  have table : ∀ m : Fin 16, isDigit (digit m.1) = true := by decide
  exact table ⟨n, h⟩

private theorem isDigit_of_mem_digits {n : Nat} {c : Char} (h : c ∈ digits n) :
    isDigit c = true := by
  fun_induction digits n with
  | case1 n hn =>
      rw [List.mem_singleton] at h
      subst h
      exact isDigit_digit hn
  | case2 n hn ih =>
      rcases List.mem_append.1 h with h | h
      · exact ih h
      · rw [List.mem_singleton] at h
        subst h
        exact isDigit_digit (Nat.mod_lt n (by decide))

theorem digits_ne_nil (n : Nat) : digits n ≠ [] := by
  unfold digits
  split <;> simp

private theorem isAlphanum_of_isDigit {c : Char} (h : isDigit c = true) : c.isAlphanum = true := by
  have alphanum : c.isAlphanum = (c.isUpper || c.isLower || c.isDigit) := rfl
  simp only [isDigit, Bool.or_eq_true, Bool.and_eq_true] at h
  rcases h with h | ⟨h, -⟩ <;> simp [alphanum, h]

theorem isNumeral_digits (n : Nat) : isNumeral (digits n) = true := by
  have all : (digits n).all isDigit = true :=
    List.all_eq_true.2 fun _ hc => isDigit_of_mem_digits hc
  simp [isNumeral, all, digits_ne_nil]

end Hexadecimal

namespace Entities

def referent? (entities : Entities) : List Char → Option Char
  | ['a', 'm', 'p'] => some '&'
  | '#' :: 'x' :: numeral =>
      if Hexadecimal.isNumeral numeral then some (Char.ofNat (Hexadecimal.ofDigits numeral))
      else none
  | name => (entities.entries.find? fun entry => entry.2.toList == name).map Prod.fst

/-- Reads a reference behind its ampersand: the character meant, and what follows the semicolon. -/
def reference? (entities : Entities) (cs : List Char) : Option (Char × List Char) :=
  match cs.dropWhile (· != ';') with
  | [] => none
  | _ :: after => (entities.referent? (cs.takeWhile (· != ';'))).map (·, after)

private theorem length_lt_of_reference? {entities : Entities} {cs after : List Char} {c : Char}
    (h : entities.reference? cs = some (c, after)) : after.length < cs.length := by
  have shorter : (cs.dropWhile (· != ';')).length ≤ cs.length :=
    (List.dropWhile_sublist _).length_le
  unfold reference? at h
  split at h
  · cases h
  · next semicolon rest hdrop =>
    obtain ⟨d, -, hd⟩ := Option.map_eq_some_iff.1 h
    cases hd
    rw [hdrop, List.length_cons] at shorter
    omega

/-- Reads a text with references in it. -/
def decode (entities : Entities) (cs : List Char) : List Char :=
  match cs with
  | [] => []
  | c :: rest =>
      if c = '&' then
        match _h : entities.reference? rest with
        | some (d, after) => d :: entities.decode after
        | none => c :: entities.decode rest
      else c :: entities.decode rest
termination_by cs.length
decreasing_by
  · have := length_lt_of_reference? _h
    simp only [List.length_cons]
    omega
  · simp
  · simp

private theorem decode_cons_of_ne (entities : Entities) {c : Char} (h : c ≠ '&')
    (rest : List Char) : entities.decode (c :: rest) = c :: entities.decode rest := by
  rw [decode, if_neg h]

theorem decode_eq_self (entities : Entities) {cs : List Char} (h : '&' ∉ cs) :
    entities.decode cs = cs := by
  induction cs with
  | nil => rw [decode]
  | cons c rest ih =>
      rw [List.mem_cons, not_or] at h
      rw [decode_cons_of_ne entities (Ne.symm h.1), ih h.2]

theorem decode_reference (entities : Entities) {name : List Char} {c : Char}
    (hname : entities.referent? name = some c) (hsemi : ';' ∉ name) (rest : List Char) :
    entities.decode ('&' :: (name ++ ';' :: rest)) = c :: entities.decode rest := by
  have stops : ∀ d ∈ name, (d != ';') = true := by
    intro d hd
    rw [bne_iff_ne]
    exact fun h => hsemi (h ▸ hd)
  have found : entities.reference? (name ++ ';' :: rest) = some (c, rest) := by
    rw [reference?, List.dropWhile_append_of_pos stops, List.takeWhile_append_of_pos stops]
    simp [hname]
  rw [decode, if_pos rfl]
  split
  · next d after h =>
    rw [found] at h
    cases h
    rfl
  · next h =>
    rw [found] at h
    cases h

/-- Says that the reference written for each character is read as that character. -/
def Legible (entities : Entities) : Prop :=
  ∀ c, entities.referent? (entities.referenceName c).toList = some c ∧
    ';' ∉ (entities.referenceName c).toList

/-- The numeral of a character is read as that character, whatever names are in use. -/
theorem referent?_numeral (entities : Entities) (c : Char) :
    entities.referent? ('#' :: 'x' :: Hexadecimal.digits c.toNat) = some c := by
  simp [referent?, Hexadecimal.isNumeral_digits, Hexadecimal.ofDigits_digits]

private theorem semicolon_not_mem_numeral (c : Char) :
    ';' ∉ '#' :: 'x' :: Hexadecimal.digits c.toNat := by
  have digitsOnly : ';' ∉ Hexadecimal.digits c.toNat := by
    intro h
    exact absurd (Hexadecimal.isDigit_of_mem_digits h) (by decide)
  simp [digitsOnly]

/-- Names are legible if each name in use is read as its own character. -/
theorem legible_of_names {entities : Entities}
    (h : ∀ c name, c ≠ '&' → entities.get? c = some name →
      entities.referent? name.toList = some c ∧ ';' ∉ name.toList) : entities.Legible := by
  intro c
  by_cases hamp : c = '&'
  · subst hamp
    rw [referenceName, if_pos rfl]
    exact ⟨rfl, by decide⟩
  · rw [referenceName, if_neg hamp]
    cases hget : entities.get? c with
    | none =>
        rw [String.toList_ofList]
        exact ⟨entities.referent?_numeral c, semicolon_not_mem_numeral c⟩
    | some name => exact h c name hamp hget

theorem legible_empty : Legible ∅ :=
  legible_of_names fun _ _ _ hget => by cases hget

/-- Says that no name in use holds a character; a name for the ampersand is never used. -/
def NamesAvoid (entities : Entities) (d : Char) : Prop :=
  ∀ c name, c ≠ '&' → entities.get? c = some name → d ∉ name.toList

theorem namesAvoid_empty (d : Char) : NamesAvoid ∅ d := fun _ _ _ hget => by cases hget

theorem mem_of_get? {entities : Entities} {c : Char} {name : String}
    (h : entities.get? c = some name) : (c, name) ∈ entities.entries := by
  obtain ⟨entry, found, rfl⟩ := Option.map_eq_some_iff.1 h
  have key : entry.1 = c := by simpa using List.find?_some found
  subst key
  exact List.mem_of_find?_eq_some found

theorem namesAvoid_of_all {entities : Entities} {d : Char}
    (h : entities.entries.all (fun entry => entry.1 == '&' || !entry.2.toList.contains d) = true) :
    entities.NamesAvoid d := by
  intro c name hamp hget
  have entry := List.all_eq_true.1 h _ (mem_of_get? hget)
  simpa [hamp] using entry

theorem reference_toList (entities : Entities) (c : Char) :
    (entities.reference c).toList = '&' :: ((entities.referenceName c).toList ++ [';']) := by
  simp [reference]

theorem mem_referenceName {entities : Entities} {c d : Char} (hnames : entities.NamesAvoid d)
    (h : d ∈ (entities.referenceName c).toList) : d = '#' ∨ d.isAlphanum = true := by
  by_cases hamp : c = '&'
  · have letters : ∀ x ∈ "amp".toList, x.isAlphanum = true := List.all_eq_true.1 (by decide)
    rw [referenceName, if_pos hamp] at h
    exact .inr (letters d h)
  · rw [referenceName, if_neg hamp] at h
    cases hget : entities.get? c with
    | some name =>
        rw [hget] at h
        exact absurd h (hnames c name hamp hget)
    | none =>
        rw [hget, String.toList_ofList, List.mem_cons, List.mem_cons] at h
        rcases h with rfl | rfl | h
        · exact .inl rfl
        · exact .inr (by decide)
        · exact .inr (Hexadecimal.isAlphanum_of_isDigit (Hexadecimal.isDigit_of_mem_digits h))

end Entities

namespace Escaping

theorem decode_escapedChar {e : Escaping} (h : e.entities.Legible) (c : Char) (rest : List Char) :
    e.entities.decode ((e.escapedChar c).toList ++ rest) = c :: e.entities.decode rest := by
  by_cases hc : e.escapes c = true
  · have text : (e.escapedChar c).toList ++ rest =
        '&' :: ((e.entities.referenceName c).toList ++ ';' :: rest) := by
      simp [escapedChar, hc, Entities.reference]
    rw [text, Entities.decode_reference _ (h c).1 (h c).2]
  · have plain : c ≠ '&' := by
      intro hamp
      simp [escapes, hamp] at hc
    have text : (e.escapedChar c).toList ++ rest = c :: rest := by
      simp [escapedChar, hc]
    rw [text, Entities.decode_cons_of_ne _ plain]

/-- Decoding an escaped text gives the text back. -/
theorem decode_escaped {e : Escaping} (h : e.entities.Legible) (s : String) :
    e.entities.decode (e.escaped s).toList = s.toList := by
  have each : ∀ cs : List Char, e.entities.decode (e.escapedList cs).toList = cs := by
    intro cs
    induction cs with
    | nil => simp [escapedList, Entities.decode]
    | cons c rest ih => rw [escapedList, String.toList_append, decode_escapedChar h, ih]
  exact each s.toList

theorem escaped_injective {e : Escaping} (h : e.entities.Legible) {s t : String}
    (heq : e.escaped s = e.escaped t) : s = t := by
  rw [← String.toList_inj, ← decode_escaped h s, heq, decode_escaped h t]

def isReferenceChar (c : Char) : Bool := c == '&' || c == ';' || c == '#' || c.isAlphanum

private theorem isReferenceChar_of_mem_reference {entities : Entities} {c d : Char}
    (hnames : entities.NamesAvoid d) (h : d ∈ (entities.reference c).toList) :
    isReferenceChar d = true := by
  rw [Entities.reference_toList, List.mem_cons, List.mem_append, List.mem_singleton] at h
  rcases h with rfl | h | rfl
  · decide
  · rcases Entities.mem_referenceName hnames h with rfl | h
    · decide
    · simp [isReferenceChar, h]
  · decide

theorem not_mem_escaped {e : Escaping} {d : Char} (hnames : e.entities.NamesAvoid d)
    (hd : e.escapes d = true) (hfree : isReferenceChar d = false) (s : String) :
    d ∉ (e.escaped s).toList := by
  have each : ∀ cs : List Char, d ∉ (e.escapedList cs).toList := by
    intro cs
    induction cs with
    | nil => simp [escapedList]
    | cons c rest ih =>
        rw [escapedList, String.toList_append, List.mem_append, not_or]
        refine ⟨?_, ih⟩
        by_cases hc : e.escapes c = true
        · rw [escapedChar, if_pos hc]
          intro hmem
          rw [isReferenceChar_of_mem_reference hnames hmem] at hfree
          cases hfree
        · rw [escapedChar, if_neg hc, String.toList_ofList, List.mem_singleton]
          rintro rfl
          exact hc hd
  exact each s.toList

end Escaping

end HtmlPrinter
