import Mathlib.Data.List.Induction
import Mathlib.Tactic.Ring

/-!
# Numbers as bytes, most significant first
-/

namespace Synch.Support

/-- A number in so many bytes. -/
def beBytes : Nat → Nat → List UInt8
  | 0, _ => []
  | count + 1, n => beBytes count (n / 256) ++ [UInt8.ofNat n]

/-- The number that bytes stand for. -/
def beValue (bytes : List UInt8) : Nat :=
  bytes.foldl (fun n byte => n * 256 + byte.toNat) 0

@[simp] theorem length_beBytes (count n : Nat) : (beBytes count n).length = count := by
  induction count generalizing n with
  | zero => rfl
  | succ count ih => simp [beBytes, ih]

theorem beValue_append (bytes : List UInt8) (last : UInt8) :
    beValue (bytes ++ [last]) = beValue bytes * 256 + last.toNat := by
  simp [beValue]

theorem beValue_lt (bytes : List UInt8) : beValue bytes < 256 ^ bytes.length := by
  induction bytes using List.reverseRecOn with
  | nil => decide
  | append_singleton bytes last ih =>
    have hlast := last.toNat_lt
    rw [beValue_append, List.length_append, List.length_singleton, Nat.pow_succ]
    omega

theorem beValue_beBytes {count n : Nat} (h : n < 256 ^ count) : beValue (beBytes count n) = n := by
  induction count generalizing n with
  | zero =>
    rw [Nat.pow_zero] at h
    rw [Nat.lt_one_iff.mp h]
    rfl
  | succ count ih =>
    have hrest : n / 256 < 256 ^ count := by
      rw [Nat.pow_succ] at h
      exact Nat.div_lt_of_lt_mul (by rwa [Nat.mul_comm])
    rw [beBytes, beValue_append, ih hrest, UInt8.toNat_ofNat']
    exact Nat.div_add_mod' n 256

theorem beBytes_beValue (bytes : List UInt8) : beBytes bytes.length (beValue bytes) = bytes := by
  induction bytes using List.reverseRecOn with
  | nil => rfl
  | append_singleton bytes last ih =>
    have hlast := last.toNat_lt
    have hrest : (beValue bytes * 256 + last.toNat) / 256 = beValue bytes := by omega
    have hbyte : UInt8.ofNat (beValue bytes * 256 + last.toNat) = last := by
      apply UInt8.toNat_inj.mp
      rw [UInt8.toNat_ofNat']
      omega
    rw [List.length_append, List.length_singleton, beBytes, beValue_append, hrest, ih, hbyte]

/-- Bytes stand for a number exactly when they are the bytes of it. -/
theorem eq_beBytes_iff {count n : Nat} {bytes : List UInt8} (h : bytes.length = count) :
    bytes = beBytes count n ∧ n < 256 ^ count ↔ beValue bytes = n := by
  subst h
  constructor
  · rintro ⟨hbytes, hn⟩
    rw [hbytes, beValue_beBytes hn]
  · rintro rfl
    exact ⟨(beBytes_beValue bytes).symm, beValue_lt bytes⟩

end Synch.Support
