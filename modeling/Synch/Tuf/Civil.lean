import Mathlib.Data.Int.LeastGreatest
import Synch.Tuf.Rfc3339

/-!
# Dates of day counts

The date of a day is computed from the years of its era and the days of a year that begins in
March, so that the leap day comes last.
-/

namespace Synch.Tuf

/-- The year, month and day of a day count since 1970-01-01.  Numbers are unbounded: this is what
the 64-bit arithmetic of the source computes where it does not overflow. -/
def civilFromDays (days : Int) : Int × Int × Int :=
  let z := days + 719468
  let era := z / 146097
  let dayOfEra := z % 146097
  let yearOfEra :=
    (dayOfEra - dayOfEra.tdiv 1460 + dayOfEra.tdiv 36524 - dayOfEra.tdiv 146096).tdiv 365
  let year := yearOfEra + era * 400
  let dayOfYear := dayOfEra - (365 * yearOfEra + yearOfEra.tdiv 4 - yearOfEra.tdiv 100)
  let monthPrime := (5 * dayOfYear + 2).tdiv 153
  let day := dayOfYear - (153 * monthPrime + 2).tdiv 5 + 1
  let month := if monthPrime < 10 then monthPrime + 3 else monthPrime - 9
  (year + if month ≤ 2 then 1 else 0, month, day)

/-- The day that a leap year has more. -/
def leapDay (year : Int) : Int :=
  if 4 ∣ year ∧ (¬100 ∣ year ∨ 400 ∣ year) then 1 else 0

def daysInMonth (year month : Int) : Int :=
  if month = 2 then 28 + leapDay year
  else if month = 4 ∨ month = 6 ∨ month = 9 ∨ month = 11 then 30
  else 31

def IsDate (year month day : Int) : Prop :=
  (1 ≤ month ∧ month ≤ 12) ∧ 1 ≤ day ∧ day ≤ daysInMonth year month

def nextDate : Int × Int × Int → Int × Int × Int
  | (year, month, day) =>
    if day < daysInMonth year month then (year, month, day + 1)
    else if month < 12 then (year, month + 1, 1)
    else (year + 1, 1, 1)

theorem leapDay_cases (year : Int) : leapDay year = 0 ∨ leapDay year = 1 := by
  rw [leapDay]
  split <;> simp

/-! ## Years from March on -/

section

variable {year day : Int}

/-- The days before a year, by its digits. -/
theorem eraDays_eq_digits (year : Int) :
    eraDays year = 146097 * (year / 400) + 36524 * (year % 400 / 100) +
      1461 * (year % 100 / 4) + 365 * (year % 4) := by
  have hera : (if year ≥ 0 then year else year - 399).tdiv 400 = year / 400 := by
    split
    · exact Int.tdiv_eq_ediv_of_nonneg (by omega)
    · have hneg : year - 399 = -(399 - year) := by omega
      rw [hneg, Int.neg_tdiv, Int.tdiv_eq_ediv_of_nonneg (by omega)]
      omega
  have hrest : year - year / 400 * 400 = year % 400 := by omega
  have hnonneg := Int.emod_nonneg year (b := 400) (by decide)
  simp only [eraDays, hera, hrest, Int.tdiv_eq_ediv_of_nonneg hnonneg]
  clear hera hrest
  omega

theorem eraDays_succ (year : Int) :
    eraDays (year + 1) = eraDays year + 365 + leapDay (year + 1) := by
  rw [eraDays_eq_digits, eraDays_eq_digits, leapDay]
  split <;> omega

/-- A day of the year that begins in March of the given one. -/
def MarchDay (year day : Int) : Prop :=
  0 ≤ day ∧ day < 365 + leapDay (year + 1)

theorem MarchDay.digits (h : MarchDay year day) :
    (0 ≤ day ∧ day ≤ 365) ∧
      (day = 365 → year % 4 = 3 ∧ (year % 100 / 4 = 24 → year % 400 / 100 = 3)) := by
  obtain ⟨hlow, hhigh⟩ := h
  rw [leapDay] at hhigh
  split at hhigh <;> omega

/-- Every day falls in the last of these years that has begun by then. -/
theorem exists_marchDay (z : Int) : ∃ year day, MarchDay year day ∧ z = eraDays year + day := by
  have hbound : ∀ year, eraDays year ≤ z → year ≤ max z 0 := by
    intro year h
    rw [eraDays_eq_digits] at h
    omega
  have hbegun : eraDays (min z 0) ≤ z := by
    rw [eraDays_eq_digits]
    omega
  obtain ⟨year, hle, hlast⟩ := Int.exists_greatest_of_bdd ⟨_, hbound⟩ ⟨_, hbegun⟩
  have hnext : z < eraDays (year + 1) := by
    by_contra h
    have hsucc := hlast (year + 1) (not_lt.mp h)
    omega
  rw [eraDays_succ] at hnext
  exact ⟨year, z - eraDays year, ⟨by omega, by omega⟩, by omega⟩

theorem yearOfEra_eq {century cycle rest : Int} (hcentury : 0 ≤ century ∧ century ≤ 3)
    (hcycle : 0 ≤ cycle ∧ cycle ≤ 24) (hrest : 0 ≤ rest ∧ rest ≤ 3) (hday : 0 ≤ day ∧ day ≤ 365)
    (hleap : day = 365 → rest = 3 ∧ (cycle = 24 → century = 3)) {dayOfEra : Int}
    (hera : dayOfEra = 36524 * century + 1461 * cycle + 365 * rest + day) :
    (0 ≤ dayOfEra ∧ dayOfEra < 146097) ∧
      (dayOfEra - dayOfEra / 1460 + dayOfEra / 36524 - dayOfEra / 146096) / 365 =
        100 * century + 4 * cycle + rest := by
  refine ⟨by omega, ?_⟩
  have hcenturies : dayOfEra / 36524 - dayOfEra / 146096 = century := by
    by_cases hlast : dayOfEra = 146096
    · subst hlast
      omega
    · have hcentury : dayOfEra / 36524 = century := by omega
      have hzero : dayOfEra / 146096 = 0 := by omega
      omega
  have hcycles : dayOfEra / 1460 =
      25 * century + cycle + (24 * century + cycle + 365 * rest + day) / 1460 := by omega
  omega

theorem civilFromDays_of_marchDay (h : MarchDay year day) :
    civilFromDays (eraDays year + day - 719468) =
      let monthPrime := (5 * day + 2) / 153
      let month := if monthPrime < 10 then monthPrime + 3 else monthPrime - 9
      (year + (if month ≤ 2 then 1 else 0), month, day - (153 * monthPrime + 2) / 5 + 1) := by
  obtain ⟨dayOfEra, hera⟩ : ∃ dayOfEra, dayOfEra =
    36524 * (year % 400 / 100) + 1461 * (year % 100 / 4) + 365 * (year % 4) + day := ⟨_, rfl⟩
  have hz : eraDays year + day - 719468 + 719468 = 146097 * (year / 400) + dayOfEra := by
    rw [eraDays_eq_digits]
    omega
  have hday : dayOfEra - (365 * (year % 400) + year % 400 / 4 - year % 400 / 100) = day := by omega
  have hdigits : 100 * (year % 400 / 100) + 4 * (year % 100 / 4) + year % 4 = year % 400 := by omega
  have hyear : year % 400 + year / 400 * 400 = year := by omega
  have hnonneg : 0 ≤ year % 400 := by omega
  obtain ⟨⟨hlow, hhigh⟩, hformula⟩ :=
    yearOfEra_eq (by omega) (by omega) (by omega) h.digits.1 h.digits.2 hera
  rw [hdigits] at hformula
  clear hera hdigits
  have hmonth : 0 ≤ 5 * day + 2 := Int.add_nonneg (Int.mul_nonneg (by decide) h.1) (by decide)
  have hmonths : 0 ≤ 153 * ((5 * day + 2) / 153) + 2 := by omega
  have hsum : 0 ≤ dayOfEra - dayOfEra / 1460 + dayOfEra / 36524 - dayOfEra / 146096 := by omega
  have hera : (146097 * (year / 400) + dayOfEra) / 146097 = year / 400 := by omega
  have hrest : (146097 * (year / 400) + dayOfEra) % 146097 = dayOfEra := by omega
  simp only [civilFromDays, hz, hera, hrest, Int.tdiv_eq_ediv_of_nonneg, hlow, hsum, hformula,
    hnonneg, hday, hmonth, hmonths, hyear]

end

/-! ## The two conversions -/

section

variable {days year month day : Int}

theorem civilFromDays_daysFromCivil (h : IsDate year month day) :
    civilFromDays (daysFromCivil year month day) = (year, month, day) := by
  obtain ⟨⟨hlow, hhigh⟩, hfirst, hlast⟩ := h
  have hleap := leapDay_cases (year - (if month ≤ 2 then 1 else 0) + 1)
  have hmarch : MarchDay (year - if month ≤ 2 then 1 else 0)
      ((153 * (month + if month > 2 then -3 else 9) + 2).tdiv 5 + (day - 1)) := by
    unfold MarchDay
    interval_cases month <;> simp [daysInMonth] at hlast hleap ⊢ <;> omega
  have hdays := civilFromDays_of_marchDay hmarch
  simp only [← add_assoc, ← add_sub_assoc] at hdays
  rw [daysFromCivil_eq_eraDays, hdays]
  interval_cases month <;> simp [daysInMonth] at hlast hleap ⊢ <;> omega

theorem isDate_of_civilFromDays (h : civilFromDays days = (year, month, day)) :
    IsDate year month day ∧ daysFromCivil year month day = days := by
  obtain ⟨marchYear, marchDay, hmarch, hz⟩ := exists_marchDay (days + 719468)
  obtain rfl : days = eraDays marchYear + marchDay - 719468 := by omega
  rw [civilFromDays_of_marchDay hmarch] at h
  obtain ⟨hlow, hhigh⟩ := hmarch
  have hleap := leapDay_cases (marchYear + 1)
  simp only [Prod.mk.injEq] at h
  obtain ⟨rfl, rfl, rfl⟩ := h
  rw [daysFromCivil_eq_eraDays, IsDate]
  obtain ⟨hfirst, hlast⟩ : 0 ≤ (5 * marchDay + 2) / 153 ∧ (5 * marchDay + 2) / 153 ≤ 11 := by omega
  generalize hprime : (5 * marchDay + 2) / 153 = monthPrime at *
  interval_cases monthPrime <;> simp [daysInMonth] <;> omega

theorem civilFromDays_eq_iff : civilFromDays days = (year, month, day) ↔
    IsDate year month day ∧ daysFromCivil year month day = days := by
  refine ⟨isDate_of_civilFromDays, ?_⟩
  rintro ⟨hdate, rfl⟩
  exact civilFromDays_daysFromCivil hdate

theorem civilFromDays_add_one (days : Int) :
    civilFromDays (days + 1) = nextDate (civilFromDays days) := by
  rcases hdate : civilFromDays days with ⟨year, month, day⟩
  obtain ⟨⟨⟨hlow, hhigh⟩, hfirst, hlast⟩, rfl⟩ := civilFromDays_eq_iff.mp hdate
  have hleap := leapDay_cases year
  -- the year that the source counts in changes after February
  have hsucc := eraDays_succ (year - 1)
  rw [sub_add_cancel] at hsucc
  rw [nextDate]
  split_ifs <;> refine civilFromDays_eq_iff.mpr ?_ <;>
    simp only [IsDate, daysFromCivil_eq_eraDays]
  · omega
  · interval_cases month <;> simp [daysInMonth] at * <;> omega
  · obtain rfl : month = 12 := by omega
    simp [daysInMonth] at *
    omega

/-- The conversions are inverse to each other on the dates of the calendar, and the next day has
the next date. -/
theorem civil_conversions :
    (∀ days year month day, civilFromDays days = (year, month, day) ↔
      IsDate year month day ∧ daysFromCivil year month day = days) ∧
      ∀ days, civilFromDays (days + 1) = nextDate (civilFromDays days) :=
  ⟨fun _ _ _ _ => civilFromDays_eq_iff, civilFromDays_add_one⟩

end

end Synch.Tuf
