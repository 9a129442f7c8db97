import Mathlib.Data.Nat.Notation

/-!
# The Gregorian calendar

Days are counted year by year and month by month from the first day of year 0.
-/

namespace Synch.Support

def IsLeap (year : Nat) : Prop :=
  year % 4 = 0 ∧ (year % 100 ≠ 0 ∨ year % 400 = 0)

instance (year : Nat) : Decidable (IsLeap year) :=
  inferInstanceAs (Decidable (_ ∧ _))

def yearLength (year : Nat) : Nat :=
  if IsLeap year then 366 else 365

/-- The days of a month, which is numbered from 1. -/
def monthLength (year month : Nat) : Nat :=
  if month = 2 then if IsLeap year then 29 else 28
  else if month = 4 ∨ month = 6 ∨ month = 9 ∨ month = 11 then 30
  else 31

def daysBeforeYear : Nat → Nat
  | 0 => 0
  | year + 1 => daysBeforeYear year + yearLength year

def daysBeforeMonth (year : Nat) : Nat → Nat
  | 0 => 0
  | 1 => 0
  | month + 2 => daysBeforeMonth year (month + 1) + monthLength year (month + 1)

/-- The days from 1 January 1970 to a date. -/
def dayNumber (year month day : Nat) : Int :=
  (daysBeforeYear year + daysBeforeMonth year month + day : Nat) - 1 - (daysBeforeYear 1970 : Nat)

/-- A leap year is one of every four, but for the centuries that four hundred does not divide. -/
theorem yearLength_eq (year : Nat) :
    yearLength year + (if 100 ∣ year then 1 else 0) =
      365 + (if 4 ∣ year then 1 else 0) + (if 400 ∣ year then 1 else 0) := by
  by_cases hfour : 4 ∣ year
  · by_cases hhundred : 100 ∣ year
    · by_cases hera : 400 ∣ year
      · have hleap : IsLeap year := ⟨by omega, by omega⟩
        simp only [yearLength, if_pos hleap, if_pos hfour, if_pos hhundred, if_pos hera]
      · have hleap : ¬IsLeap year := by rintro ⟨_, _⟩; omega
        simp only [yearLength, if_neg hleap, if_pos hfour, if_pos hhundred, if_neg hera]
    · have hera : ¬400 ∣ year := by omega
      have hleap : IsLeap year := ⟨by omega, by omega⟩
      simp only [yearLength, if_pos hleap, if_pos hfour, if_neg hhundred, if_neg hera]
  · have hhundred : ¬100 ∣ year := by omega
    have hera : ¬400 ∣ year := by omega
    have hleap : ¬IsLeap year := by rintro ⟨_, _⟩; omega
    simp only [yearLength, if_neg hleap, if_neg hfour, if_neg hhundred, if_neg hera]

theorem daysBeforeYear_succ (year : Nat) :
    daysBeforeYear (year + 1) + year / 100 = 365 * year + 366 + year / 4 + year / 400 := by
  induction year with
  | zero => rfl
  | succ year ih =>
    have hlength := yearLength_eq (year + 1)
    rw [daysBeforeYear, @Nat.succ_div year 4, @Nat.succ_div year 100, @Nat.succ_div year 400]
    omega

theorem daysBeforeYear_1970 : daysBeforeYear 1970 = 719528 := by
  have h : daysBeforeYear 1970 + 1969 / 100 = 365 * 1969 + 366 + 1969 / 4 + 1969 / 400 :=
    daysBeforeYear_succ 1969
  omega

end Synch.Support
