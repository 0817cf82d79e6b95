/-!
# Hexadecimal numerals

Upper-case base-sixteen numerals without leading zeros. `ofDigits_digits` says that a numeral
stands for the number it was written from.
-/

namespace HtmlPrinter.Hexadecimal

def digit (n : Nat) : Char :=
  if n < 10 then Char.ofNat (48 + n) else Char.ofNat (55 + n)

/-- Writes a number with its most significant digit first; zero is the single digit `0`. -/
def digits (n : Nat) : List Char :=
  if n < 16 then [digit n] else digits (n / 16) ++ [digit (n % 16)]

def digitValue (c : Char) : Nat :=
  if c.toNat < 58 then c.toNat - 48 else c.toNat - 55

def ofDigits (cs : List Char) : Nat :=
  cs.foldl (fun n c => 16 * n + digitValue c) 0

theorem digitValue_digit {n : Nat} (h : n < 16) : digitValue (digit n) = n := by
  have table : ∀ m : Fin 16, digitValue (digit m.1) = m.1 := by decide
  exact table ⟨n, h⟩

theorem ofDigits_append_singleton (cs : List Char) (c : Char) :
    ofDigits (cs ++ [c]) = 16 * ofDigits cs + digitValue c := by
  simp [ofDigits]

theorem ofDigits_digits (n : Nat) : ofDigits (digits n) = n := by
  fun_induction digits n with
  | case1 n h => simpa [ofDigits] using digitValue_digit h
  | case2 n h ih =>
      rw [ofDigits_append_singleton, ih, digitValue_digit (Nat.mod_lt n (by decide))]
      omega

end HtmlPrinter.Hexadecimal
