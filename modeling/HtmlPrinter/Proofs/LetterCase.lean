import HtmlPrinter.Text.Caseless

/-!
# Names in lower case

Lowering the capitals of a name gives a name that agrees with it, and keeps every character that is
no letter where it is.
-/

namespace HtmlPrinter

private theorem isAlpha_iff {c : Char} :
    c.isAlpha = true ↔ 65 ≤ c.toNat ∧ c.toNat ≤ 90 ∨ 97 ≤ c.toNat ∧ c.toNat ≤ 122 := by
  have letters : c.isAlpha = (decide (65 ≤ c.val ∧ c.val ≤ 90) ||
      decide (97 ≤ c.val) && decide (c.val ≤ 122)) := rfl
  simp only [letters, Bool.or_eq_true, Bool.and_eq_true, decide_eq_true_eq,
    UInt32.le_iff_toNat_le]
  rfl

theorem toNat_toLower (c : Char) :
    c.toLower.toNat = if 65 ≤ c.toNat ∧ c.toNat ≤ 90 then c.toNat + 32 else c.toNat := by
  have bounds : (c.val ≥ 'A'.val ∧ c.val ≤ 'Z'.val) ↔ (65 ≤ c.toNat ∧ c.toNat ≤ 90) := by
    simp only [ge_iff_le, UInt32.le_iff_toNat_le]
    rfl
  unfold Char.toLower
  by_cases h : 65 ≤ c.toNat ∧ c.toNat ≤ 90
  · have small : c.val.toNat + 32 < 2 ^ 32 := by
      have : c.val.toNat ≤ 90 := h.2
      omega
    rw [dif_pos (bounds.2 h), if_pos h]
    show (c.val + 32).toNat = c.val.toNat + 32
    rw [UInt32.toNat_add]
    exact Nat.mod_eq_of_lt small
  · rw [dif_neg fun hb => h (bounds.1 hb), if_neg h]

private theorem toLower_toLower (c : Char) : c.toLower.toLower = c.toLower := by
  apply Char.toNat_inj.1
  rw [toNat_toLower, if_neg]
  rw [toNat_toLower]
  split <;> omega

theorem toLower_eq_iff {c d : Char} (hd : d.isAlpha = false) : c.toLower = d ↔ c = d := by
  -- a capital is no `d`, and becomes none, since both would be letters
  rw [Bool.eq_false_iff, ne_eq, isAlpha_iff] at hd
  rw [← Char.toNat_inj, ← Char.toNat_inj, toNat_toLower]
  split <;> omega

theorem foldName_append (left right : String) :
    foldName (left ++ right) = foldName left ++ foldName right := by
  simp [foldName]

def lowered (name : String) : String := String.ofList (foldName name)

theorem foldName_lowered (name : String) : foldName (lowered name) = foldName name := by
  rw [lowered, foldName, String.toList_ofList, foldName, List.map_map]
  exact List.map_congr_left fun c _ => toLower_toLower c

@[simp] theorem sameName_lowered (name other : String) :
    sameName (lowered name) other = sameName name other :=
  sameName_congr (sameName_iff.2 (foldName_lowered name)) other

@[simp] theorem nameIn_lowered (name : String) (names : List String) :
    nameIn (lowered name) names = nameIn name names :=
  nameIn_congr (sameName_iff.2 (foldName_lowered name)) names

theorem contains_lowered {c : Char} (hc : c.isAlpha = false) (name : String) :
    (lowered name).toList.contains c = name.toList.contains c := by
  rw [Bool.eq_iff_iff, List.contains_iff_mem, List.contains_iff_mem, lowered, String.toList_ofList,
    foldName, List.mem_map]
  simp only [toLower_eq_iff hc, exists_eq_right]

end HtmlPrinter
