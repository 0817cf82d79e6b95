import HtmlPrinter.Config.Basic
import HtmlPrinter.Proofs.References

/-!
# Escaped text is safe in its place

Escaping writes ampersands, which are forbidden everywhere themselves. `Config.IsSafe` says why a
text may stand in markup all the same: it holds no other forbidden character, and each of its
ampersands begins the reference of one character of the text that was escaped. `isSafe_escape`
gives this for every configuration, place and text, if the names in use are safe themselves.
-/

namespace HtmlPrinter

namespace Hexadecimal

/-- Says that a numeral is the one of a number: in upper case and without zeros in front. -/
structure IsNumeralOf (n : Nat) (cs : List Char) : Prop where
  numeral : isNumeral cs = true
  value : ofDigits cs = n
  lead : cs.head? = some '0' → cs = ['0']

private theorem head?_digits_ne_zero {n : Nat} (h : n ≠ 0) : (digits n).head? ≠ some '0' := by
  fun_induction digits n with
  | case1 n hn =>
      have table : ∀ m : Fin 16, m.1 ≠ 0 → digit m.1 ≠ '0' := by decide
      rw [List.head?_cons, ne_eq, Option.some_inj]
      exact table ⟨n, hn⟩ h
  | case2 n hn ih =>
      obtain ⟨c, rest, hdigits⟩ := List.exists_cons_of_ne_nil (digits_ne_nil (n / 16))
      have lead := ih (by omega)
      rw [hdigits] at lead ⊢
      exact lead

private theorem isNumeralOf_digits (n : Nat) : IsNumeralOf n (digits n) where
  numeral := isNumeral_digits n
  value := ofDigits_digits n
  lead := by
    intro hlead
    by_cases h : n = 0
    · subst h
      rw [digits]
      rfl
    · exact absurd hlead (head?_digits_ne_zero h)

end Hexadecimal

namespace Entities

/-- Says that a reference stands for a character: `&amp;` for the ampersand, the name in use for a
character that has one, and for any other the numeral of its code point. -/
inductive Stands (entities : Entities) : Char → List Char → Prop where
  | ampersand : Stands entities '&' "&amp;".toList
  | named {c : Char} {name : String} : c ≠ '&' → entities.get? c = some name →
      Stands entities c ('&' :: (name.toList ++ [';']))
  | numbered {c : Char} {numeral : List Char} : c ≠ '&' → entities.get? c = none →
      Hexadecimal.IsNumeralOf c.toNat numeral →
      Stands entities c ('&' :: '#' :: 'x' :: (numeral ++ [';']))

private theorem stands_reference (entities : Entities) (c : Char) :
    entities.Stands c (entities.reference c).toList := by
  by_cases hamp : c = '&'
  · subst hamp
    rw [reference_ampersand]
    exact .ampersand
  · rw [reference_toList, referenceName, if_neg hamp]
    cases hget : entities.get? c with
    | some name => exact .named hamp hget
    | none =>
        rw [String.toList_ofList]
        exact .numbered hamp hget (Hexadecimal.isNumeralOf_digits c.toNat)

private theorem ampersand_not_mem_referenceName {entities : Entities}
    (hnames : entities.NamesAvoid '&') (c : Char) :
    '&' ∉ (entities.referenceName c).toList ++ [';'] := by
  intro h
  rcases List.mem_append.1 h with h | h
  · exact absurd (mem_referenceName hnames h) (by decide)
  · exact absurd h (by decide)

end Entities

private theorem exists_append_of_not_mem {first rest front back : List Char} {d : Char}
    (hd : d ∉ first) (h : first ++ rest = front ++ d :: back) :
    ∃ between, front = first ++ between ∧ rest = between ++ d :: back := by
  rcases List.append_eq_append_iff.1 h with ⟨between, hfront, hrest⟩ | ⟨between, hfirst, hback⟩
  · exact ⟨between, hfront, hrest⟩
  · cases between with
    | nil => exact ⟨[], by simpa using hfirst.symm, by simpa using hback.symm⟩
    | cons x between =>
        rw [List.cons_append, List.cons.injEq] at hback
        refine absurd ?_ hd
        rw [hfirst, hback.1]
        simp

namespace Escaping

variable {e : Escaping}

private theorem escapedChar_of_escapes {c : Char} (h : e.escapes c = true) :
    (e.escapedChar c).toList = '&' :: ((e.entities.referenceName c).toList ++ [';']) := by
  rw [escapedChar, if_pos h, Entities.reference_toList]

private theorem escapedChar_of_plain {c : Char} (h : ¬ e.escapes c = true) :
    (e.escapedChar c).toList = [c] ∧ '&' ∉ [c] := by
  refine ⟨by rw [escapedChar, if_neg h, String.toList_ofList], ?_⟩
  rw [List.mem_singleton]
  rintro rfl
  exact h (by simp [escapes])

private theorem exists_of_ampersand_escapedList (hnames : e.entities.NamesAvoid '&')
    {cs front back : List Char} (h : (e.escapedList cs).toList = front ++ '&' :: back) :
    ∃ before c after, cs = before ++ c :: after ∧ e.escapes c = true ∧
      front = (e.escapedList before).toList ∧
      '&' :: back = (e.entities.reference c).toList ++ (e.escapedList after).toList := by
  -- either the first character begins with this ampersand, or it is written in front of it
  induction cs generalizing front with
  | nil => simp [escapedList] at h
  | cons c rest ih =>
      rw [escapedList, String.toList_append] at h
      by_cases hc : e.escapes c = true
      · rw [escapedChar_of_escapes hc] at h
        cases front with
        | nil =>
            refine ⟨[], c, rest, rfl, hc, by simp [escapedList], ?_⟩
            rw [Entities.reference_toList]
            exact h.symm
        | cons x front =>
            rw [List.cons_append, List.cons_append, List.cons.injEq] at h
            obtain ⟨between, hfront, hrest⟩ :=
              exists_append_of_not_mem (Entities.ampersand_not_mem_referenceName hnames c) h.2
            obtain ⟨before, d, after, hcs, hd, hbetween, hback⟩ := ih hrest
            refine ⟨c :: before, d, after, by rw [hcs, List.cons_append], hd, ?_, hback⟩
            rw [escapedList, String.toList_append, escapedChar_of_escapes hc, ← hbetween, hfront,
              ← h.1, List.cons_append]
      · obtain ⟨text, plain⟩ := escapedChar_of_plain hc
        rw [text] at h
        obtain ⟨between, hfront, hrest⟩ := exists_append_of_not_mem plain h
        obtain ⟨before, d, after, hcs, hd, hbetween, hback⟩ := ih hrest
        refine ⟨c :: before, d, after, by rw [hcs, List.cons_append], hd, ?_, hback⟩
        rw [escapedList, String.toList_append, text, ← hbetween, hfront]

private theorem count_ampersand_escapedList (hnames : e.entities.NamesAvoid '&') (cs : List Char) :
    (e.escapedList cs).toList.count '&' = cs.countP e.escapes := by
  induction cs with
  | nil => rfl
  | cons c rest ih =>
      rw [escapedList, String.toList_append, List.count_append, ih]
      by_cases hc : e.escapes c = true
      · have tail := List.count_eq_zero.2 (Entities.ampersand_not_mem_referenceName hnames c)
        rw [escapedChar_of_escapes hc, List.count_cons_self, tail, List.countP_cons_of_pos hc]
        omega
      · obtain ⟨text, plain⟩ := escapedChar_of_plain hc
        rw [text, List.count_eq_zero.2 plain, List.countP_cons_of_neg hc]
        omega

end Escaping

namespace Config

/-- Says that a text may stand where `s` was to stand: no forbidden character is left in it but
ampersands, each of these begins the reference of a character of `s`, with what is in front of the
character written in front and what is behind it written behind, and no reference is missing. -/
structure IsSafe (cfg : Config) (place : Context) (s : String) (text : List Char) : Prop where
  eq_ampersand : ∀ d ∈ text, d ∈ cfg.forbidden place → d = '&'
  begins : ∀ front back, text = front ++ '&' :: back → ∃ before c after reference,
    s.toList = before ++ c :: after ∧ c ∈ cfg.forbidden place ∧ cfg.entities.Stands c reference ∧
      front = ((cfg.escaping place).escapedList before).toList ∧
      '&' :: back = reference ++ ((cfg.escaping place).escapedList after).toList
  count : text.count '&' = s.toList.countP fun c => c == '&' || (cfg.forbidden place).contains c

private theorem not_isReferenceChar_of_mem_forbidden {cfg : Config} {place : Context} {d : Char}
    (h : d ∈ cfg.forbidden place) (hamp : d ≠ '&') : Escaping.isReferenceChar d = false := by
  have table : Context.all.all (fun place => (place.forbidden false false).all fun d =>
      d == '&' || !Escaping.isReferenceChar d) = true := by decide
  have strict : d ∈ place.forbidden false false := by
    rw [Context.mem_forbidden]
    rcases Context.mem_forbidden.1 h with h | h | h
    · exact .inl h
    · exact .inr (.inl ⟨rfl, h.2⟩)
    · exact .inr (.inr ⟨rfl, h.2⟩)
  have checked := List.all_eq_true.1 table place (Context.mem_all place)
  simpa [hamp] using List.all_eq_true.1 checked d strict

theorem escapes_escaping_iff {cfg : Config} {place : Context} {c : Char} :
    (cfg.escaping place).escapes c = true ↔ c ∈ cfg.forbidden place := by
  have ampersand : '&' ∈ cfg.forbidden place := Context.ampersand_mem_forbidden _ _ _
  rw [Escaping.escapes, Bool.or_eq_true, beq_iff_eq, List.contains_iff_mem]
  exact ⟨fun h => h.elim (fun hamp => hamp ▸ ampersand) id, .inr⟩

theorem not_mem_escaped_of_forbidden {cfg : Config} {place : Context} {d : Char}
    (hnames : cfg.entities.NamesAvoid d) (h : d ∈ cfg.forbidden place) (hamp : d ≠ '&')
    (s : String) : d ∉ ((cfg.escaping place).escaped s).toList :=
  Escaping.not_mem_escaped hnames (escapes_escaping_iff.2 h)
    (not_isReferenceChar_of_mem_forbidden h hamp) s

/-- An escaped text is safe in its place, if no name in use holds a character that is forbidden
there. -/
theorem isSafe_escape (cfg : Config) (place : Context) (s : String)
    (hnames : ∀ d ∈ cfg.forbidden place, cfg.entities.NamesAvoid d) :
    cfg.IsSafe place s (cfg.escape place s).text.toList := by
  have ampersand : cfg.entities.NamesAvoid '&' :=
    hnames '&' (Context.ampersand_mem_forbidden _ _ _)
  rw [text_escape]
  refine ⟨?_, ?_, Escaping.count_ampersand_escapedList ampersand s.toList⟩
  · intro d hd hforbidden
    by_cases hamp : d = '&'
    · exact hamp
    · exact absurd hd (not_mem_escaped_of_forbidden (hnames d hforbidden) hforbidden hamp s)
  · intro front back h
    obtain ⟨before, c, after, hs, hc, hfront, hback⟩ :=
      Escaping.exists_of_ampersand_escapedList ampersand h
    exact ⟨before, c, after, _, hs, escapes_escaping_iff.1 hc,
      cfg.entities.stands_reference c, hfront, hback⟩

/-- Names two references, and one for the ampersand, which would not be safe if it were used. -/
def named : Config where
  entities := { entries := [('"', "quot"), ('&', "x&\x27"), ('é', "eacute")] }

/-- A value that holds quotes, a NUL and what looks like a reference. -/
theorem isSafe_escape_named :
    (named.escape .doubleQuoted "\"é&amp;\x00<").text = "&quot;é&amp;amp;&#x0;<" ∧
      named.IsSafe .doubleQuoted "\"é&amp;\x00<" "&quot;é&amp;amp;&#x0;<".toList := by
  have names : (named.forbidden .doubleQuoted).all (fun d => named.entities.entries.all fun entry =>
      entry.1 == '&' || !entry.2.toList.contains d) = true := by decide
  have evaluated :
      (named.escape .doubleQuoted "\"é&amp;\x00<").text = "&quot;é&amp;amp;&#x0;<" := by
    decide +kernel
  have safe := isSafe_escape named .doubleQuoted "\"é&amp;\x00<"
    fun d hd => Entities.namesAvoid_of_all (List.all_eq_true.1 names d hd)
  rw [evaluated] at safe
  exact ⟨evaluated, safe⟩

end Config

end HtmlPrinter
