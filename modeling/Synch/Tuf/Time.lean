import Mathlib.Data.List.Basic
import Mathlib.Algebra.Group.Nat.Defs
import Mathlib.Algebra.Group.Int.Defs
import Synch.Support.Calendar

/-!
# The time stamps of the metadata

The reader of time stamps takes its fields from fixed offsets and reads each of them as a signed
number.  What it reads is described by a grammar of its own, in which a field may carry a sign;
the date-times of RFC 3339 are described apart, with the instant the calendar gives them.
-/

namespace Synch.Tuf

open Synch.Support

/-! ## The source -/

/-- Days from 1970-01-01 to a proleptic Gregorian date. -/
def daysFromCivil (year month day : Int) : Int :=
  let year := year - if month ≤ 2 then 1 else 0
  let era := (if year ≥ 0 then year else year - 399).tdiv 400
  let yearOfEra := year - era * 400
  let dayOfYear := (153 * (month + if month > 2 then -3 else 9) + 2).tdiv 5 + day - 1
  let dayOfEra := yearOfEra * 365 + yearOfEra.tdiv 4 - yearOfEra.tdiv 100 + dayOfYear
  era * 146097 + dayOfEra - 719468

def octets (text : String) : List UInt8 :=
  text.toByteArray.data.toList

def isDigit (octet : UInt8) : Bool :=
  48 ≤ octet.toNat && octet.toNat ≤ 57

/-- A number in decimal without a sign. -/
def parseDigits (text : List UInt8) : Option Nat :=
  if text ≠ [] ∧ text.all isDigit then
    some (text.foldl (fun n octet => 10 * n + (octet.toNat - 48)) 0)
  else none

/-- The sign the source takes before a number. -/
inductive Sign where
  | none
  | plus
  | minus
deriving DecidableEq

def Sign.apply : Sign → Nat → Int
  | .minus, n => -n
  | _, n => n

def splitSign : List UInt8 → Sign × List UInt8
  | 43 :: digits => (.plus, digits)
  | 45 :: digits => (.minus, digits)
  | digits => (.none, digits)

/-- A 64-bit number in decimal, with an optional sign. -/
def parseI64 (text : List UInt8) : Option Int :=
  let (sign, digits) := splitSign text
  ((parseDigits digits).map sign.apply).filter fun n => -2 ^ 63 ≤ n ∧ n < 2 ^ 63

def lastDay (year month : Int) : Int :=
  let leap := year.tmod 4 = 0 ∧ (year.tmod 100 ≠ 0 ∨ year.tmod 400 = 0)
  if month = 1 ∨ month = 3 ∨ month = 5 ∨ month = 7 ∨ month = 8 ∨ month = 10 ∨ month = 12 then 31
  else if month = 4 ∨ month = 6 ∨ month = 9 ∨ month = 11 then 30
  else 28 + if leap then 1 else 0

/-- What follows a fraction of a second, if there is one. -/
def skipFraction (rest : List UInt8) : List UInt8 :=
  match rest with
  | 46 :: fraction => fraction.dropWhile isDigit
  | _ => rest

def parseOffset (rest : List UInt8) : Option Int :=
  match rest with
  | [] => some 0
  | [90] => some 0
  | [122] => some 0
  | [sign, h0, h1, colon, m0, m1] =>
    if (sign = 43 ∨ sign = 45) ∧ colon = 58 then do
      let hours ← parseI64 [h0, h1]
      let minutes ← parseI64 [m0, m1]
      let magnitude := hours * 3600 + minutes * 60
      return if sign = 45 then -magnitude else magnitude
    else none
  | _ => none

/-- The names of the octets are those of their fields. -/
def parseRfc3339 (text : String) : Option Int :=
  match octets text with
  | y0 :: y1 :: y2 :: y3 :: dash :: m0 :: m1 :: dash' :: d0 :: d1 :: tee ::
      h0 :: h1 :: colon :: n0 :: n1 :: colon' :: s0 :: s1 :: rest =>
      if dash ≠ 45 ∨ dash' ≠ 45 ∨ tee ≠ 84 ∨ colon ≠ 58 ∨ colon' ≠ 58 then none
      else do
        let year ← parseI64 [y0, y1, y2, y3]
        let month ← parseI64 [m0, m1]
        let day ← parseI64 [d0, d1]
        let hour ← parseI64 [h0, h1]
        let minute ← parseI64 [n0, n1]
        let second ← parseI64 [s0, s1]
        if ¬(1 ≤ month ∧ month ≤ 12) ∨ hour > 23 ∨ minute > 59 ∨ second > 60 then none
        else if ¬(1 ≤ day ∧ day ≤ lastDay year month) then none
        else do
          let offset ← parseOffset (skipFraction rest)
          return daysFromCivil year month day * 86400 + hour * 3600 + minute * 60 + second - offset
  | _ => none

end Synch.Tuf
