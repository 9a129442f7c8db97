import Mathlib.Order.Basic
import Mathlib.Algebra.Group.Nat.Defs
import Mathlib.Algebra.Group.Int.Defs

/-!
# Machine words

Facts about 64-bit words and their signed reading: maxima, increments, and the
maximum of two words that were cast to signed integers first.
-/

namespace Synch.Support

theorem toNat_max (a b : UInt64) : (max a b).toNat = max a.toNat b.toNat := by
  by_cases h : a ≤ b
  · rw [show max a b = b from if_pos h, Nat.max_eq_right (UInt64.le_iff_toNat_le.mp h)]
  · have hle : b.toNat ≤ a.toNat := by
      rw [UInt64.le_iff_toNat_le] at h
      omega
    rw [show max a b = a from if_neg h, Nat.max_eq_left hle]

theorem le_max_left_word (a b : UInt64) : a ≤ max a b := by
  rw [UInt64.le_iff_toNat_le, toNat_max]
  exact Nat.le_max_left _ _

theorem le_max_right_word (a b : UInt64) : b ≤ max a b := by
  rw [UInt64.le_iff_toNat_le, toNat_max]
  exact Nat.le_max_right _ _

theorem max_le_word {a b c : UInt64} (ha : a ≤ c) (hb : b ≤ c) : max a b ≤ c := by
  rw [UInt64.le_iff_toNat_le] at ha hb ⊢
  rw [toNat_max]
  exact Nat.max_le.mpr ⟨ha, hb⟩

/-- An increment below the greatest word is strictly greater. -/
theorem lt_add_one_of_ne_last {a : UInt64} (h : a.toNat + 1 < 2 ^ 64) : a < a + 1 := by
  rw [UInt64.lt_iff_toNat_lt, UInt64.toNat_add]
  have hone : (1 : UInt64).toNat = 1 := rfl
  rw [hone, Nat.mod_eq_of_lt h]
  omega

/-- The signed reading of a word, by the side of `2 ^ 63` it lies on. -/
theorem toInt_toInt64 (a : UInt64) :
    a.toInt64.toInt =
      if a.toNat < 2 ^ 63 then (a.toNat : Int) else (a.toNat : Int) - 2 ^ 64 := by
  have hvalue : a.toInt64.toInt = a.toBitVec.toInt := rfl
  have hnat : a.toBitVec.toNat = a.toNat := rfl
  rw [hvalue, BitVec.toInt_eq_toNat_cond, hnat]
  by_cases hlow : a.toNat < 2 ^ 63
  · have hdouble : 2 * a.toNat < 2 ^ 64 := by omega
    rw [if_pos hdouble, if_pos hlow]
  · have hdouble : ¬2 * a.toNat < 2 ^ 64 := by omega
    rw [if_neg hdouble, if_neg hlow]
    rfl

/-- On one side of `2 ^ 63` the signed order of words is the unsigned one. -/
theorem toInt64_le_toInt64_iff {a b : UInt64} (hside : a.toNat < 2 ^ 63 ↔ b.toNat < 2 ^ 63) :
    a.toInt64 ≤ b.toInt64 ↔ a ≤ b := by
  rw [Int64.le_iff_toInt_le, UInt64.le_iff_toNat_le, toInt_toInt64, toInt_toInt64]
  by_cases ha : a.toNat < 2 ^ 63
  · rw [if_pos ha, if_pos (hside.mp ha)]
    omega
  · rw [if_neg ha, if_neg (fun hb => ha (hside.mpr hb))]
    omega

/-- On one side of `2 ^ 63` the signed maximum of words is the unsigned one. -/
theorem toUInt64_max_toInt64 {a b : UInt64} (hside : a.toNat < 2 ^ 63 ↔ b.toNat < 2 ^ 63) :
    (max a.toInt64 b.toInt64).toUInt64 = max a b := by
  by_cases h : a ≤ b
  · rw [show max a.toInt64 b.toInt64 = b.toInt64 from
      if_pos ((toInt64_le_toInt64_iff hside).mpr h), show max a b = b from if_pos h]
    rfl
  · rw [show max a.toInt64 b.toInt64 = a.toInt64 from
      if_neg (fun hle => h ((toInt64_le_toInt64_iff hside).mp hle)),
      show max a b = a from if_neg h]
    rfl

end Synch.Support
