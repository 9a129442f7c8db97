import Mathlib.Data.Fintype.Basic
import Mathlib.Tactic.FinCases
import Mathlib.Tactic.IntervalCases
import Synch.Tuf.Time

/-!
# What the reader of time stamps accepts
-/

namespace Synch.Tuf

open List Synch.Support

/-! ## The calendar -/

theorem lastDay_natCast {year month : Nat} (h : 1 ≤ month ∧ month ≤ 12) :
    lastDay year month = monthLength year month := by
  have hleap : ((year : Int).tmod 4 = 0 ∧ ((year : Int).tmod 100 ≠ 0 ∨ (year : Int).tmod 400 = 0)) ↔
      IsLeap year := by
    rw [IsLeap]
    simp only [Int.tmod_eq_emod_of_nonneg (Int.natCast_nonneg year)]
    omega
  obtain ⟨hlow, hhigh⟩ := h
  unfold lastDay monthLength
  simp only [hleap]
  split_ifs <;> omega

/-- The days of whole years, which the source counts in eras of four hundred. -/
def eraDays (year : Int) : Int :=
  let era := (if year ≥ 0 then year else year - 399).tdiv 400
  let yearOfEra := year - era * 400
  era * 146097 + (yearOfEra * 365 + yearOfEra.tdiv 4 - yearOfEra.tdiv 100)

theorem daysFromCivil_eq_eraDays (year month day : Int) :
    daysFromCivil year month day =
      eraDays (year - if month ≤ 2 then 1 else 0) +
        (153 * (month + if month > 2 then -3 else 9) + 2).tdiv 5 + day - 1 - 719468 := by
  simp only [daysFromCivil, eraDays]
  omega

theorem eraDays_natCast (year : Nat) : eraDays year = daysBeforeYear (year + 1) - 366 := by
  have hera : (year : Int).tdiv 400 = (year / 400 : Nat) := by
    rw [Int.tdiv_eq_ediv_of_nonneg (Int.natCast_nonneg year)]
    rfl
  have hrest : (year : Int) - (year / 400 : Nat) * 400 = (year % 400 : Nat) := by omega
  have hquotient : ∀ divisor : Nat,
      ((year % 400 : Nat) : Int).tdiv divisor = (year % 400 / divisor : Nat) := by
    intro divisor
    rw [Int.tdiv_eq_ediv_of_nonneg (Int.natCast_nonneg _)]
    rfl
  have hhundred : year / 100 = 4 * (year / 400) + year % 400 / 100 := by omega
  have hdays := daysBeforeYear_succ year
  have hnonneg : (year : Int) ≥ 0 := Int.natCast_nonneg year
  have hquotient4 := hquotient 4
  have hquotient100 := hquotient 100
  simp only [Nat.cast_ofNat] at hquotient4 hquotient100
  simp only [eraDays, if_pos hnonneg, hera, hrest, hquotient4, hquotient100]
  omega

theorem eraDays_natCast_sub_one (year : Nat) : eraDays (year - 1) = daysBeforeYear year - 366 := by
  cases year with
  | zero => rfl
  | succ year =>
    have hyear : ((year + 1 : Nat) : Int) - 1 = year := by omega
    rw [hyear, eraDays_natCast]

/-- The months from March on, which the source counts from the end of the year. -/
theorem daysBeforeMonth_add {year month : Nat} (h : 3 ≤ month ∧ month ≤ 12) :
    daysBeforeMonth year month + 306 = yearLength year + (153 * (month - 3) + 2) / 5 := by
  have hyear : yearLength year = 337 + monthLength year 2 := by
    simp only [yearLength, monthLength]
    split <;> rfl
  obtain ⟨hlow, hhigh⟩ := h
  rw [hyear]
  interval_cases month <;> simp [daysBeforeMonth, monthLength] <;> omega

/-- The day count of the source is the one of the calendar. -/
theorem daysFromCivil_natCast (year : Nat) {month : Nat} (h : 1 ≤ month ∧ month ≤ 12) (day : Nat) :
    daysFromCivil year month day = dayNumber year month day := by
  rw [daysFromCivil_eq_eraDays, dayNumber, daysBeforeYear_1970]
  by_cases hmarch : 3 ≤ month
  · have hmonths := @daysBeforeMonth_add year month ⟨hmarch, h.2⟩
    have hshift : (153 * ((month : Int) + -3) + 2).tdiv 5 = ((153 * (month - 3) + 2) / 5 : Nat) := by
      rw [Int.tdiv_eq_ediv_of_nonneg (by omega)]
      omega
    rw [if_neg (by omega), if_pos (by omega), Int.sub_zero, eraDays_natCast, hshift, daysBeforeYear]
    omega
  · have hmonth : month = 1 ∨ month = 2 := by omega
    have hbefore : 306 + daysBeforeMonth year month =
        ((153 * ((month : Int) + 9) + 2).tdiv 5).toNat := by
      obtain rfl | rfl := hmonth <;> rfl
    rw [if_pos (by omega), if_neg (by omega), eraDays_natCast_sub_one]
    omega

/-! ## Numerals -/

def digitOctet (digit : Fin 10) : UInt8 :=
  UInt8.ofNat (48 + digit)

def numeral (digits : List (Fin 10)) : Nat :=
  digits.foldl (fun n digit => 10 * n + digit.val) 0

/-- A number in a fixed number of digits. -/
def padded : Nat → Nat → List (Fin 10)
  | 0, _ => []
  | width + 1, n => padded width (n / 10) ++ [Fin.ofNat 10 n]

theorem numeral_append (digits : List (Fin 10)) (last : Fin 10) :
    numeral (digits ++ [last]) = 10 * numeral digits + last := by
  simp [numeral]

@[simp] theorem length_padded (width n : Nat) : (padded width n).length = width := by
  induction width generalizing n with
  | zero => rfl
  | succ width ih => simp [padded, ih]

theorem numeral_padded {width n : Nat} (h : n < 10 ^ width) : numeral (padded width n) = n := by
  induction width generalizing n with
  | zero =>
    obtain rfl : n = 0 := by simpa using h
    rfl
  | succ width ih =>
    have hquotient : n / 10 < 10 ^ width := by
      rw [Nat.pow_succ] at h
      exact Nat.div_lt_of_lt_mul (by omega)
    rw [padded, numeral_append, ih hquotient, Fin.ofNat]
    exact Nat.div_add_mod n 10

theorem padded_numeral (digits : List (Fin 10)) :
    padded digits.length (numeral digits) = digits := by
  induction digits using reverseRecOn with
  | nil => rfl
  | append_singleton digits last ih =>
    have hquotient : (10 * numeral digits + last) / 10 = numeral digits := by omega
    have hlast : Fin.ofNat 10 (10 * numeral digits + last) = last := by
      apply Fin.ext
      change (10 * numeral digits + last) % 10 = last
      omega
    rw [length_append, length_singleton, padded, numeral_append, hquotient, ih, hlast]

theorem numeral_lt (digits : List (Fin 10)) : numeral digits < 10 ^ digits.length := by
  induction digits using reverseRecOn with
  | nil => simp [numeral]
  | append_singleton digits last ih =>
    rw [numeral_append, length_append, length_singleton, Nat.pow_succ]
    omega

theorem toNat_digitOctet (digit : Fin 10) : (digitOctet digit).toNat = 48 + digit := by
  rw [digitOctet, UInt8.toNat_ofNat']
  omega

theorem isDigit_iff {octet : UInt8} : isDigit octet = true ↔ ∃ digit, digitOctet digit = octet := by
  constructor
  · intro h
    simp only [isDigit, Bool.and_eq_true, decide_eq_true_eq] at h
    refine ⟨⟨octet.toNat - 48, by omega⟩, UInt8.toNat.inj ?_⟩
    rw [toNat_digitOctet]
    exact Nat.add_sub_of_le h.1
  · rintro ⟨digit, rfl⟩
    simp only [isDigit, toNat_digitOctet, Bool.and_eq_true, decide_eq_true_eq]
    omega

theorem all_isDigit_iff {text : List UInt8} :
    text.all isDigit = true ↔ ∃ digits : List (Fin 10), digits.map digitOctet = text := by
  rw [all_eq_true]
  induction text with
  | nil => simp
  | cons octet text ih =>
    rw [forall_mem_cons, ih, isDigit_iff]
    constructor
    · rintro ⟨⟨digit, rfl⟩, digits, rfl⟩
      exact ⟨digit :: digits, rfl⟩
    · rintro ⟨digits, hdigits⟩
      obtain ⟨digit, digits, rfl, hdigit, hrest⟩ := map_eq_cons_iff.mp hdigits
      exact ⟨⟨digit, hdigit⟩, digits, hrest⟩

theorem parseDigits_map (digits : List (Fin 10)) (h : digits ≠ []) :
    parseDigits (digits.map digitOctet) = some (numeral digits) := by
  have hall : (digits.map digitOctet).all isDigit = true := all_isDigit_iff.mpr ⟨digits, rfl⟩
  rw [parseDigits, if_pos ⟨by simpa using h, hall⟩, foldl_map]
  simp only [toNat_digitOctet, Nat.add_sub_cancel_left]
  rfl

theorem parseDigits_eq_some_iff {text : List UInt8} {n : Nat} :
    parseDigits text = some n ↔
      ∃ digits : List (Fin 10), digits ≠ [] ∧ digits.map digitOctet = text ∧ numeral digits = n := by
  constructor
  · intro h
    have hcond : text ≠ [] ∧ text.all isDigit = true := by
      by_contra hnot
      rw [parseDigits, if_neg hnot] at h
      cases h
    obtain ⟨digits, rfl⟩ := all_isDigit_iff.mp hcond.2
    have hdigits : digits ≠ [] := by simpa using hcond.1
    rw [parseDigits_map digits hdigits] at h
    exact ⟨digits, hdigits, rfl, Option.some.inj h⟩
  · rintro ⟨digits, hdigits, rfl, rfl⟩
    exact parseDigits_map digits hdigits

/-! ## Fields -/

def Sign.octets : Sign → List UInt8
  | .none => []
  | .plus => [43]
  | .minus => [45]

theorem octets_splitSign (text : List UInt8) :
    (splitSign text).1.octets ++ (splitSign text).2 = text := by
  unfold splitSign
  split <;> rfl

theorem splitSign_append (sign : Sign) {digits : List (Fin 10)} (h : digits ≠ []) :
    splitSign (sign.octets ++ digits.map digitOctet) = (sign, digits.map digitOctet) := by
  cases sign with
  | plus => rfl
  | minus => rfl
  | none =>
    obtain ⟨digit, rest, rfl⟩ := exists_cons_of_ne_nil h
    fin_cases digit <;> rfl

/-- A number of a fixed width, as the source reads it. -/
structure Field (width : Nat) where
  sign : Sign
  digits : List (Fin 10)
  digits_ne_nil : digits ≠ []
  length_eq : sign.octets.length + digits.length = width

namespace Field

variable {width : Nat}

def octets (field : Field width) : List UInt8 :=
  field.sign.octets ++ field.digits.map digitOctet

def value (field : Field width) : Int :=
  field.sign.apply (numeral field.digits)

/-- A number in digits alone. -/
def unsigned (digits : List (Fin 10)) (h : digits ≠ []) (hlength : digits.length = width) :
    Field width :=
  ⟨.none, digits, h, by simpa [Sign.octets] using hlength⟩

theorem length_octets (field : Field width) : field.octets.length = width := by
  rw [octets, length_append, length_map, field.length_eq]

end Field

theorem parseI64_octets {width : Nat} (field : Field width) (h : width ≤ 4) :
    parseI64 field.octets = some field.value := by
  have hlt : numeral field.digits < 10 ^ 4 :=
    lt_of_lt_of_le (numeral_lt _)
      (Nat.pow_le_pow_right (by omega) (by have := field.length_eq; omega))
  have hrange : -2 ^ 63 ≤ field.value ∧ field.value < 2 ^ 63 := by
    rw [Field.value]
    cases field.sign <;> simp only [Sign.apply] <;> omega
  rw [parseI64, Field.octets, splitSign_append _ field.digits_ne_nil]
  simp only [parseDigits_map _ field.digits_ne_nil, Option.map_some]
  exact Option.filter_some_pos (by simpa [Field.value] using hrange)

theorem exists_field_of_parseI64 {text : List UInt8} {n : Int} (h : parseI64 text = some n) :
    ∃ field : Field text.length, field.octets = text ∧ field.value = n := by
  have hvalue : (parseDigits (splitSign text).2).map (splitSign text).1.apply = some n :=
    (Option.filter_eq_some_iff.mp h).1
  obtain ⟨m, hm, hn⟩ := Option.map_eq_some_iff.mp hvalue
  obtain ⟨digits, hdigits, hmap, rfl⟩ := parseDigits_eq_some_iff.mp hm
  have htext := octets_splitSign text
  rw [← hmap] at htext
  refine ⟨⟨(splitSign text).1, digits, hdigits, ?_⟩, htext, hn⟩
  conv_rhs => rw [← htext]
  simp

/-- Six fields with their separators, and what follows them. -/
structure Layout where
  year : List UInt8
  month : List UInt8
  day : List UInt8
  tee : UInt8
  hour : List UInt8
  minute : List UInt8
  second : List UInt8
  rest : List UInt8

namespace Layout

def octets (layout : Layout) : List UInt8 :=
  layout.year ++ 45 :: (layout.month ++ 45 :: (layout.day ++ layout.tee :: (layout.hour ++
    58 :: (layout.minute ++ 58 :: (layout.second ++ layout.rest)))))

/-- The widths of the fields. -/
def Wide (layout : Layout) : Prop :=
  layout.year.length = 4 ∧ layout.month.length = 2 ∧ layout.day.length = 2 ∧
    layout.hour.length = 2 ∧ layout.minute.length = 2 ∧ layout.second.length = 2

/-- The widths tell the fields apart. -/
theorem eq_of_octets_eq {a b : Layout} (ha : a.Wide) (hb : b.Wide) (h : a.octets = b.octets) :
    a = b := by
  obtain ⟨ay, am, ad, ah, an, as⟩ := ha
  obtain ⟨bY, bm, bd, bh, bn, bs⟩ := hb
  obtain ⟨hyear, h⟩ := append_inj h (ay.trans bY.symm)
  obtain ⟨hmonth, h⟩ := append_inj (cons.inj h).2 (am.trans bm.symm)
  obtain ⟨hday, h⟩ := append_inj (cons.inj h).2 (ad.trans bd.symm)
  obtain ⟨htee, h⟩ := cons.inj h
  obtain ⟨hhour, h⟩ := append_inj h (ah.trans bh.symm)
  obtain ⟨hminute, h⟩ := append_inj (cons.inj h).2 (an.trans bn.symm)
  obtain ⟨hsecond, hrest⟩ := append_inj (cons.inj h).2 (as.trans bs.symm)
  cases a
  cases b
  simp_all

end Layout

/-! ## What the source reads -/

/-- What may stand for a zone. -/
inductive ReadZone where
  | missing
  | utc (lower : Bool)
  | offset (west : Bool) (hours minutes : Field 2)

namespace ReadZone

def octets : ReadZone → List UInt8
  | .missing => []
  | .utc lower => [if lower then 122 else 90]
  | .offset west hours minutes =>
    (if west then 45 else 43) :: (hours.octets ++ 58 :: minutes.octets)

def seconds : ReadZone → Int
  | .missing => 0
  | .utc _ => 0
  | .offset west hours minutes =>
    let magnitude := hours.value * 3600 + minutes.value * 60
    if west then -magnitude else magnitude

/-- A zone of RFC 3339. -/
def Strict : ReadZone → Prop
  | .missing => False
  | .utc _ => True
  | .offset _ hours minutes =>
    hours.sign = .none ∧ minutes.sign = .none ∧ hours.value ≤ 23 ∧ minutes.value ≤ 59

end ReadZone

def fractionOctets : Option (List (Fin 10)) → List UInt8
  | none => []
  | some digits => 46 :: digits.map digitOctet

/-- A text that the source reads: each field may carry a sign. -/
structure Reading where
  year : Field 4
  month : Field 2
  day : Field 2
  hour : Field 2
  minute : Field 2
  second : Field 2
  month_mem : 1 ≤ month.value ∧ month.value ≤ 12
  day_mem : 1 ≤ day.value ∧ day.value ≤ lastDay year.value month.value
  hour_le : hour.value ≤ 23
  minute_le : minute.value ≤ 59
  second_le : second.value ≤ 60
  fraction : Option (List (Fin 10))
  zone : ReadZone

namespace Reading

def layout (r : Reading) : Layout where
  year := r.year.octets
  month := r.month.octets
  day := r.day.octets
  tee := 84
  hour := r.hour.octets
  minute := r.minute.octets
  second := r.second.octets
  rest := fractionOctets r.fraction ++ r.zone.octets

def seconds (r : Reading) : Int :=
  daysFromCivil r.year.value r.month.value r.day.value * 86400 + r.hour.value * 3600 +
    r.minute.value * 60 + r.second.value - r.zone.seconds

/-- Digits only in each field, a digit after the point, and a zone within its range. -/
def Strict (r : Reading) : Prop :=
  r.year.sign = .none ∧ r.month.sign = .none ∧ r.day.sign = .none ∧ r.hour.sign = .none ∧
    r.minute.sign = .none ∧ r.second.sign = .none ∧ r.fraction ≠ some [] ∧ r.zone.Strict

theorem wide_layout (r : Reading) : r.layout.Wide :=
  ⟨r.year.length_octets, r.month.length_octets, r.day.length_octets, r.hour.length_octets,
    r.minute.length_octets, r.second.length_octets⟩

end Reading

theorem parseOffset_octets (zone : ReadZone) : parseOffset zone.octets = some zone.seconds := by
  cases zone with
  | missing => rfl
  | utc lower => cases lower <;> rfl
  | offset west hours minutes =>
    have hparse := parseI64_octets hours (by decide)
    have mparse := parseI64_octets minutes (by decide)
    obtain ⟨h0, h1, hhours⟩ := length_eq_two.mp hours.length_octets
    obtain ⟨m0, m1, hminutes⟩ := length_eq_two.mp minutes.length_octets
    rw [hhours] at hparse
    rw [hminutes] at mparse
    simp only [ReadZone.octets, ReadZone.seconds, hhours, hminutes, cons_append, nil_append]
    cases west <;> simp [parseOffset, hparse, mparse]

theorem exists_zone_of_parseOffset {rest : List UInt8} {seconds : Int}
    (h : parseOffset rest = some seconds) :
    ∃ zone : ReadZone, zone.octets = rest ∧ zone.seconds = seconds := by
  unfold parseOffset at h
  split at h
  · exact ⟨.missing, rfl, Option.some.inj h⟩
  · exact ⟨.utc false, rfl, Option.some.inj h⟩
  · exact ⟨.utc true, rfl, Option.some.inj h⟩
  · rename_i sign h0 h1 colon m0 m1
    split at h
    · rename_i hcond
      obtain ⟨hsign, rfl⟩ := hcond
      simp only [Option.bind_eq_bind, Option.bind_eq_some_iff, Option.pure_def,
        Option.some.injEq] at h
      obtain ⟨hours, hhours, minutes, hminutes, rfl⟩ := h
      obtain ⟨hourField, hhour, rfl⟩ := exists_field_of_parseI64 hhours
      obtain ⟨minuteField, hminute, rfl⟩ := exists_field_of_parseI64 hminutes
      obtain rfl | rfl := hsign
      · refine ⟨.offset false hourField minuteField, ?_, rfl⟩
        simp [ReadZone.octets, hhour, hminute]
      · refine ⟨.offset true hourField minuteField, ?_, rfl⟩
        simp [ReadZone.octets, hhour, hminute]
    · cases h
  · cases h

/-- No zone starts with a digit or a point. -/
theorem not_digit_of_head {zone : ReadZone} {octet : UInt8} (h : zone.octets.head? = some octet) :
    octet ≠ 46 ∧ isDigit octet = false := by
  cases zone with
  | missing => cases h
  | utc lower => cases lower <;> (cases h; decide)
  | offset west hours minutes => cases west <;> (cases h; decide)

theorem dropWhile_zone (zone : ReadZone) : zone.octets.dropWhile isDigit = zone.octets := by
  cases hzone : zone.octets with
  | nil => rfl
  | cons octet rest =>
    have hhead : zone.octets.head? = some octet := by rw [hzone, head?_cons]
    rw [dropWhile_cons, (not_digit_of_head hhead).2]
    rfl

theorem skipFraction_append (fraction : Option (List (Fin 10))) (zone : ReadZone) :
    skipFraction (fractionOctets fraction ++ zone.octets) = zone.octets := by
  cases fraction with
  | none =>
    rw [fractionOctets, nil_append, skipFraction]
    intro rest hzone
    have hhead : zone.octets.head? = some 46 := by rw [hzone, head?_cons]
    exact (not_digit_of_head hhead).1 rfl
  | some digits =>
    have hall : ∀ octet ∈ digits.map digitOctet, isDigit octet = true := by
      intro octet hoctet
      obtain ⟨digit, -, hdigit⟩ := mem_map.mp hoctet
      exact isDigit_iff.mpr ⟨digit, hdigit⟩
    rw [fractionOctets, cons_append, skipFraction, dropWhile_append_of_pos hall, dropWhile_zone]

theorem exists_fraction (rest : List UInt8) :
    ∃ fraction, fractionOctets fraction ++ skipFraction rest = rest := by
  unfold skipFraction
  split
  · rename_i after
    obtain ⟨digits, hdigits⟩ := all_isDigit_iff.mp (all_takeWhile (l := after) (p := isDigit))
    refine ⟨some digits, ?_⟩
    rw [fractionOctets, hdigits, cons_append, takeWhile_append_dropWhile]
  · exact ⟨none, rfl⟩

theorem exists_four {text : List UInt8} (h : text.length = 4) : ∃ a b c d, text = [a, b, c, d] :=
  match text, h with
  | [a, b, c, d], _ => ⟨a, b, c, d, rfl⟩

theorem parseRfc3339_of_layout {text : String} (r : Reading) (h : r.layout.octets = octets text) :
    parseRfc3339 text = some r.seconds := by
  have hyear := parseI64_octets r.year (by decide)
  have hmonth := parseI64_octets r.month (by decide)
  have hday := parseI64_octets r.day (by decide)
  have hhour := parseI64_octets r.hour (by decide)
  have hminute := parseI64_octets r.minute (by decide)
  have hsecond := parseI64_octets r.second (by decide)
  obtain ⟨y0, y1, y2, y3, hy⟩ := exists_four r.year.length_octets
  obtain ⟨m0, m1, hm⟩ := length_eq_two.mp r.month.length_octets
  obtain ⟨d0, d1, hd⟩ := length_eq_two.mp r.day.length_octets
  obtain ⟨h0, h1, hh⟩ := length_eq_two.mp r.hour.length_octets
  obtain ⟨n0, n1, hn⟩ := length_eq_two.mp r.minute.length_octets
  obtain ⟨s0, s1, hs⟩ := length_eq_two.mp r.second.length_octets
  have htext : octets text = y0 :: y1 :: y2 :: y3 :: 45 :: m0 :: m1 :: 45 :: d0 :: d1 :: 84 ::
      h0 :: h1 :: 58 :: n0 :: n1 :: 58 :: s0 :: s1 ::
        (fractionOctets r.fraction ++ r.zone.octets) := by
    rw [← h]
    simp [Layout.octets, Reading.layout, hy, hm, hd, hh, hn, hs]
  rw [hy] at hyear
  rw [hm] at hmonth
  rw [hd] at hday
  rw [hh] at hhour
  rw [hn] at hminute
  rw [hs] at hsecond
  have hranges : ¬(¬(1 ≤ r.month.value ∧ r.month.value ≤ 12) ∨ r.hour.value > 23 ∨
      r.minute.value > 59 ∨ r.second.value > 60) := by
    have h1 := r.month_mem
    have h2 := r.hour_le
    have h3 := r.minute_le
    have h4 := r.second_le
    omega
  unfold parseRfc3339
  rw [htext]
  simp only [skipFraction_append, parseOffset_octets, hyear, hmonth, hday, hhour, hminute, hsecond,
    Option.bind_eq_bind, Option.bind_some, if_neg hranges, not_not.mpr r.day_mem]
  simp [Reading.seconds]

theorem exists_reading_of_parseRfc3339 {text : String} {t : Int} (h : parseRfc3339 text = some t) :
    ∃ r : Reading, r.layout.octets = octets text ∧ r.seconds = t := by
  unfold parseRfc3339 at h
  split at h
  · rename_i y0 y1 y2 y3 dash m0 m1 dash' d0 d1 tee h0 h1 colon n0 n1 colon' s0 s1 rest htext
    split at h
    · cases h
    · rename_i hseparators
      simp only [not_or, not_not] at hseparators
      obtain ⟨rfl, rfl, rfl, rfl, rfl⟩ := hseparators
      simp only [Option.bind_eq_bind, Option.bind_eq_some_iff] at h
      obtain ⟨year, hyear, month, hmonth, day, hday, hour, hhour, minute, hminute, second, hsecond, h⟩ := h
      split at h
      · cases h
      · rename_i hranges
        split at h
        · cases h
        · rename_i hday'
          simp only [Option.bind_eq_some_iff, Option.pure_def, Option.some.injEq] at h
          obtain ⟨offset, hoffset, rfl⟩ := h
          obtain ⟨yearField, hy, rfl⟩ := exists_field_of_parseI64 hyear
          obtain ⟨monthField, hm, rfl⟩ := exists_field_of_parseI64 hmonth
          obtain ⟨dayField, hd, rfl⟩ := exists_field_of_parseI64 hday
          obtain ⟨hourField, hh, rfl⟩ := exists_field_of_parseI64 hhour
          obtain ⟨minuteField, hn, rfl⟩ := exists_field_of_parseI64 hminute
          obtain ⟨secondField, hs, rfl⟩ := exists_field_of_parseI64 hsecond
          obtain ⟨zone, hzone, rfl⟩ := exists_zone_of_parseOffset hoffset
          obtain ⟨fraction, hfraction⟩ := exists_fraction rest
          refine ⟨⟨yearField, monthField, dayField, hourField, minuteField, secondField, by omega,
            by omega, by omega, by omega, by omega, fraction, zone⟩, ?_, rfl⟩
          rw [htext, ← hfraction, ← hzone]
          simp [Layout.octets, Reading.layout, hy, hm, hd, hh, hn, hs]
  · cases h

/-! ## The date-times of RFC 3339 -/

inductive Zone where
  | utc (lower : Bool)
  | offset (west : Bool) (hours : Fin 24) (minutes : Fin 60)
deriving DecidableEq

namespace Zone

def octets : Zone → List UInt8
  | .utc lower => [if lower then 122 else 90]
  | .offset west hours minutes =>
    (if west then 45 else 43) ::
      ((padded 2 hours).map digitOctet ++ 58 :: (padded 2 minutes).map digitOctet)

/-- How far the clocks of the zone are ahead of UTC. -/
def seconds : Zone → Int
  | .utc _ => 0
  | .offset west hours minutes =>
    if west then -(hours * 3600 + minutes * 60 : Nat) else (hours * 3600 + minutes * 60 : Nat)

end Zone

/-- A date-time: the letters may be in lower case, and the digits of a fraction need not be
there. -/
structure DateTime where
  year : Fin 10000
  month : Nat
  day : Nat
  lower : Bool
  hour : Fin 24
  minute : Fin 60
  second : Fin 61
  fraction : List (Fin 10)
  zone : Zone
  month_mem : 1 ≤ month ∧ month ≤ 12
  day_mem : 1 ≤ day ∧ day ≤ monthLength year month

namespace DateTime

def layout (d : DateTime) : Layout where
  year := (padded 4 d.year).map digitOctet
  month := (padded 2 d.month).map digitOctet
  day := (padded 2 d.day).map digitOctet
  tee := if d.lower then 116 else 84
  hour := (padded 2 d.hour).map digitOctet
  minute := (padded 2 d.minute).map digitOctet
  second := (padded 2 d.second).map digitOctet
  rest := fractionOctets (if d.fraction = [] then none else some d.fraction) ++ d.zone.octets

/-- The whole seconds from the epoch to the instant. -/
def unixSeconds (d : DateTime) : Int :=
  dayNumber d.year d.month d.day * 86400 + (d.hour * 3600 + d.minute * 60 + d.second : Nat) -
    d.zone.seconds

theorem wide_layout (d : DateTime) : d.layout.Wide := by
  simp [Layout.Wide, layout]

end DateTime

/-- A text is a date-time that denotes an instant. -/
def Denotes (text : String) (t : Int) : Prop :=
  ∃ d : DateTime, d.layout.octets = octets text ∧ d.unixSeconds = t

/-! ## Readings and date-times -/

namespace Field

variable {width : Nat}

/-- A number as a field of digits. -/
def ofNat (width n : Nat) (h : 0 < width) : Field width where
  sign := .none
  digits := padded width n
  digits_ne_nil := List.ne_nil_of_length_pos (by rwa [length_padded])
  length_eq := by simp [Sign.octets]

theorem value_ofNat {n : Nat} (hwidth : 0 < width) (h : n < 10 ^ width) :
    (ofNat width n hwidth).value = n :=
  congrArg Nat.cast (numeral_padded h)

theorem value_two {n : Nat} (h : n < 100) : (ofNat 2 n Nat.two_pos).value = n :=
  value_ofNat Nat.two_pos h

theorem length_digits {field : Field width} (h : field.sign = .none) :
    field.digits.length = width := by
  simpa [h, Sign.octets] using field.length_eq

theorem value_of_unsigned {field : Field width} (h : field.sign = .none) :
    field.value = (numeral field.digits : Nat) := by
  rw [value, h]
  rfl

theorem numeral_lt_of_unsigned {field : Field width} (h : field.sign = .none) :
    numeral field.digits < 10 ^ width := by
  have hlt := numeral_lt field.digits
  rwa [length_digits h] at hlt

theorem octets_of_unsigned {field : Field width} (h : field.sign = .none) :
    (padded width (numeral field.digits)).map digitOctet = field.octets := by
  have hpadded := padded_numeral field.digits
  rw [length_digits h] at hpadded
  rw [octets, h, hpadded]
  rfl

end Field

theorem exists_zone_of_strict {zone : ReadZone} (h : zone.Strict) :
    ∃ z : Zone, z.octets = zone.octets ∧ z.seconds = zone.seconds := by
  cases zone with
  | missing => exact absurd h id
  | utc lower => exact ⟨.utc lower, rfl, rfl⟩
  | offset west hours minutes =>
    obtain ⟨hhours, hminutes, hhourLe, hminuteLe⟩ := h
    rw [Field.value_of_unsigned hhours] at hhourLe
    rw [Field.value_of_unsigned hminutes] at hminuteLe
    refine ⟨.offset west ⟨numeral hours.digits, by omega⟩ ⟨numeral minutes.digits, by omega⟩,
      ?_, ?_⟩
    · simp only [Zone.octets, ReadZone.octets, Field.octets_of_unsigned hhours,
        Field.octets_of_unsigned hminutes]
    · simp only [Zone.seconds, ReadZone.seconds, Field.value_of_unsigned hhours,
        Field.value_of_unsigned hminutes]
      push_cast
      rfl

theorem exists_readZone (z : Zone) :
    ∃ zone : ReadZone, zone.Strict ∧ zone.octets = z.octets ∧ zone.seconds = z.seconds := by
  cases z with
  | utc lower => exact ⟨.utc lower, trivial, rfl, rfl⟩
  | offset west hours minutes =>
    have hhours := Field.value_two (show hours.val < 100 by omega)
    have hminutes := Field.value_two (show minutes.val < 100 by omega)
    refine ⟨.offset west (.ofNat 2 hours (by decide)) (.ofNat 2 minutes (by decide)),
      ⟨rfl, rfl, ?_, ?_⟩, rfl, ?_⟩
    · rw [hhours]
      omega
    · rw [hminutes]
      omega
    · simp only [Zone.seconds, ReadZone.seconds, hhours, hminutes]
      push_cast
      rfl

/-- A reading of digits only is a date-time, read at its instant. -/
theorem exists_dateTime_of_strict {r : Reading} (h : r.Strict) :
    ∃ d : DateTime, d.layout = r.layout ∧ d.unixSeconds = r.seconds := by
  obtain ⟨hyear, hmonth, hday, hhour, hminute, hsecond, hfraction, hzone⟩ := h
  obtain ⟨zone, hzoneOctets, hzoneSeconds⟩ := exists_zone_of_strict hzone
  have monthMem := r.month_mem
  have dayMem := r.day_mem
  have hourLe := r.hour_le
  have minuteLe := r.minute_le
  have secondLe := r.second_le
  simp only [Field.value_of_unsigned, hyear, hmonth, hday, hhour, hminute, hsecond]
    at monthMem dayMem hourLe minuteLe secondLe
  rw [lastDay_natCast (by omega)] at dayMem
  refine ⟨{
    year := ⟨numeral r.year.digits, Field.numeral_lt_of_unsigned hyear⟩
    month := numeral r.month.digits
    day := numeral r.day.digits
    lower := false
    hour := ⟨numeral r.hour.digits, by omega⟩
    minute := ⟨numeral r.minute.digits, by omega⟩
    second := ⟨numeral r.second.digits, by omega⟩
    fraction := r.fraction.getD []
    zone
    month_mem := by omega
    day_mem := by simpa using dayMem }, ?_, ?_⟩
  · have hrest : (if r.fraction.getD [] = [] then none else some (r.fraction.getD [])) =
        r.fraction := by
      cases hdigits : r.fraction with
      | none => rfl
      | some digits =>
        have hne : digits ≠ [] := by
          rintro rfl
          exact hfraction hdigits
        exact if_neg hne
    simp only [DateTime.layout, Reading.layout, Field.octets_of_unsigned, hyear, hmonth, hday,
      hhour, hminute, hsecond, hrest, hzoneOctets]
    rfl
  · simp only [DateTime.unixSeconds, Reading.seconds, Field.value_of_unsigned, hyear, hmonth, hday,
      hhour, hminute, hsecond, hzoneSeconds,
      daysFromCivil_natCast _ (show 1 ≤ numeral r.month.digits ∧ _ by omega)]
    omega

theorem monthLength_le (year month : Nat) : monthLength year month ≤ 31 := by
  unfold monthLength
  split_ifs <;> omega

/-- A date-time with its letter in upper case is read at its instant. -/
theorem exists_reading_of_dateTime {d : DateTime} (h : d.lower = false) :
    ∃ r : Reading, r.Strict ∧ r.layout = d.layout ∧ r.seconds = d.unixSeconds := by
  obtain ⟨zone, hstrict, hzoneOctets, hzoneSeconds⟩ := exists_readZone d.zone
  have hmonths := d.month_mem
  have hdays := d.day_mem
  have hlength := monthLength_le d.year d.month
  have hyear : (Field.ofNat 4 d.year (by decide)).value = d.year.val :=
    Field.value_ofNat (by decide) d.year.isLt
  have hmonth := Field.value_two (show d.month < 100 by omega)
  have hday := Field.value_two (show d.day < 100 by omega)
  have hhour := Field.value_two (show d.hour.val < 100 by omega)
  have hminute := Field.value_two (show d.minute.val < 100 by omega)
  have hsecond := Field.value_two (show d.second.val < 100 by omega)
  refine ⟨{
    year := .ofNat 4 d.year (by decide)
    month := .ofNat 2 d.month (by decide)
    day := .ofNat 2 d.day (by decide)
    hour := .ofNat 2 d.hour (by decide)
    minute := .ofNat 2 d.minute (by decide)
    second := .ofNat 2 d.second (by decide)
    month_mem := by omega
    day_mem := by
      rw [hyear, hmonth, hday, lastDay_natCast hmonths]
      omega
    hour_le := by omega
    minute_le := by omega
    second_le := by omega
    fraction := if d.fraction = [] then none else some d.fraction
    zone }, ⟨rfl, rfl, rfl, rfl, rfl, rfl, ?_, hstrict⟩, ?_, ?_⟩
  · change (if d.fraction = [] then none else some d.fraction) ≠ some []
    split
    · simp
    · simpa
  · simp only [DateTime.layout, Reading.layout, hzoneOctets, h]
    rfl
  · simp only [DateTime.unixSeconds, Reading.seconds, hyear, hmonth, hday, hhour, hminute, hsecond,
      hzoneSeconds, daysFromCivil_natCast _ hmonths]
    omega

theorem Field.unsigned_of_octets {width : Nat} {a b : Field width} (ha : a.sign = .none)
    (h : a.octets = b.octets) : b.sign = .none := by
  have hsplit := congrArg splitSign h
  rw [octets, octets, splitSign_append _ a.digits_ne_nil, splitSign_append _ b.digits_ne_nil]
    at hsplit
  exact (congrArg Prod.fst hsplit).symm.trans ha

theorem Field.value_eq_of_octets {a b : Field 2} (h : a.octets = b.octets) : a.value = b.value := by
  have hparse := congrArg parseI64 h
  rw [parseI64_octets a (by decide), parseI64_octets b (by decide)] at hparse
  exact Option.some.inj hparse

theorem ReadZone.strict_of_octets_eq {a b : ReadZone} (h : a.octets = b.octets) (ha : a.Strict) :
    b.Strict := by
  cases a with
  | missing => exact absurd ha id
  | utc lower =>
    cases b with
    | missing => cases h
    | utc lower' => trivial
    | offset west hours minutes =>
      have hlength := congrArg List.length h
      simp [octets, Field.length_octets] at hlength
  | offset west hours minutes =>
    cases b with
    | missing => cases h
    | utc lower =>
      have hlength := congrArg List.length h
      simp [octets, Field.length_octets] at hlength
    | offset west' hours' minutes' =>
      obtain ⟨hhours, hrest⟩ := append_inj (cons.inj h).2
        (hours.length_octets.trans hours'.length_octets.symm)
      have hminutes := (cons.inj hrest).2
      obtain ⟨hsign, hsign', hle, hle'⟩ := ha
      exact ⟨Field.unsigned_of_octets hsign hhours, Field.unsigned_of_octets hsign' hminutes,
        (Field.value_eq_of_octets hhours).symm.trans_le hle,
        (Field.value_eq_of_octets hminutes).symm.trans_le hle'⟩

theorem fractionOctets_eq_iff {fraction : Option (List (Fin 10))} :
    fractionOctets fraction = [46] ↔ fraction = some [] := by
  cases fraction <;> simp [fractionOctets]

/-- Whether a reading is of digits only can be told from its text. -/
theorem Reading.strict_of_layout_eq {a b : Reading} (h : a.layout = b.layout) (ha : a.Strict) :
    b.Strict := by
  obtain ⟨hyear, hmonth, hday, hhour, hminute, hsecond, hfraction, hzone⟩ := ha
  have hrest : fractionOctets a.fraction ++ a.zone.octets =
      fractionOctets b.fraction ++ b.zone.octets := congrArg Layout.rest h
  have hzones : a.zone.octets = b.zone.octets := by
    have hskip := congrArg skipFraction hrest
    rwa [skipFraction_append, skipFraction_append] at hskip
  rw [hzones] at hrest
  have hfractions := append_cancel_right hrest
  refine ⟨?_, ?_, ?_, ?_, ?_, ?_, ?_, ReadZone.strict_of_octets_eq hzones hzone⟩
  · exact Field.unsigned_of_octets hyear (congrArg Layout.year h)
  · exact Field.unsigned_of_octets hmonth (congrArg Layout.month h)
  · exact Field.unsigned_of_octets hday (congrArg Layout.day h)
  · exact Field.unsigned_of_octets hhour (congrArg Layout.hour h)
  · exact Field.unsigned_of_octets hminute (congrArg Layout.minute h)
  · exact Field.unsigned_of_octets hsecond (congrArg Layout.second h)
  · intro hempty
    rw [fractionOctets_eq_iff.mpr hempty] at hfractions
    exact hfraction (fractionOctets_eq_iff.mp hfractions)

/-! ## Exactness -/

/-- A text that is a date-time but for a sign before the digits of a field, a point without
digits, a missing zone, or an offset of more than 23 hours or 59 minutes. -/
def Loose (text : String) : Prop :=
  ∃ r : Reading, r.layout.octets = octets text ∧ ¬r.Strict

/-- A date-time with a lower-case letter between the date and the time. -/
def LowerCase (text : String) : Prop :=
  ∃ d : DateTime, d.layout.octets = octets text ∧ d.lower = true

/-- A reading and a date-time of one text have one layout. -/
theorem layout_eq_of_octets_eq {r : Reading} {d : DateTime}
    (h : d.layout.octets = r.layout.octets) :
    d.layout = r.layout ∧ d.lower = false := by
  have hlayout := Layout.eq_of_octets_eq d.wide_layout r.wide_layout h
  refine ⟨hlayout, ?_⟩
  have htee : (if d.lower then 116 else 84 : UInt8) = 84 := congrArg Layout.tee hlayout
  by_contra hlower
  rw [if_pos (by simpa using hlower)] at htee
  exact absurd htee (by decide)

theorem not_denotes_of_loose {text : String} (h : Loose text) (t : Int) : ¬Denotes text t := by
  obtain ⟨r, htext, hloose⟩ := h
  rintro ⟨d, hd, -⟩
  obtain ⟨hlayout, hlower⟩ := layout_eq_of_octets_eq (hd.trans htext.symm)
  obtain ⟨strict, hstrict, hsame, -⟩ := exists_reading_of_dateTime hlower
  exact hloose (Reading.strict_of_layout_eq (hsame.trans hlayout) hstrict)

/-- The source reads the date-times of RFC 3339 and no other text, each at its instant, except
where the text is loose or writes the letter in lower case. -/
theorem parseRfc3339_exact_iff (text : String) :
    (∀ t, parseRfc3339 text = some t ↔ Denotes text t) ↔ ¬Loose text ∧ ¬LowerCase text := by
  constructor
  · intro hexact
    constructor
    · rintro ⟨r, htext, hloose⟩
      exact not_denotes_of_loose ⟨r, htext, hloose⟩ r.seconds
        ((hexact r.seconds).mp (parseRfc3339_of_layout r htext))
    · rintro ⟨d, htext, hlower⟩
      have hparse := (hexact d.unixSeconds).mpr ⟨d, htext, rfl⟩
      obtain ⟨r, hr, -⟩ := exists_reading_of_parseRfc3339 hparse
      have hupper := (layout_eq_of_octets_eq (htext.trans hr.symm)).2
      rw [hupper] at hlower
      cases hlower
  · rintro ⟨hstrict, hupper⟩ t
    constructor
    · intro hparse
      obtain ⟨r, htext, rfl⟩ := exists_reading_of_parseRfc3339 hparse
      have hr : r.Strict := by
        by_contra hnot
        exact hstrict ⟨r, htext, hnot⟩
      obtain ⟨d, hlayout, hseconds⟩ := exists_dateTime_of_strict hr
      exact ⟨d, hlayout ▸ htext, hseconds⟩
    · rintro ⟨d, htext, rfl⟩
      have hlower : d.lower = false := by
        by_contra hnot
        exact hupper ⟨d, htext, by simpa using hnot⟩
      obtain ⟨r, -, hlayout, hseconds⟩ := exists_reading_of_dateTime hlower
      rw [← hseconds]
      exact parseRfc3339_of_layout r (hlayout ▸ htext)

/-- An offset of 99 hours and 99 minutes, which makes an expiry four days later. -/
def farOffset : Reading where
  year := .ofNat 4 2026 (by decide)
  month := .ofNat 2 1 (by decide)
  day := .ofNat 2 1 (by decide)
  hour := .ofNat 2 0 (by decide)
  minute := .ofNat 2 0 (by decide)
  second := .ofNat 2 0 (by decide)
  month_mem := by decide
  day_mem := by decide
  hour_le := by decide
  minute_le := by decide
  second_le := by decide
  fraction := none
  zone := .offset true (.ofNat 2 99 (by decide)) (.ofNat 2 99 (by decide))

theorem far_offset_read :
    parseRfc3339 "2026-01-01T00:00:00-99:99" = some 1767587940 ∧
      ∀ t, ¬Denotes "2026-01-01T00:00:00-99:99" t := by
  refine ⟨by decide +kernel, not_denotes_of_loose ⟨farOffset, by decide +kernel, ?_⟩⟩
  rintro ⟨-, -, -, -, -, -, -, -, -, hhours, -⟩
  exact absurd hhours (by decide)

end Synch.Tuf
