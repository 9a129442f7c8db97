import Mathlib.Data.List.Basic

/-!
# Base64

The standard alphabet without padding; a decoder that refuses bits which encode
nothing.
-/

namespace Synch.Support

/-- The letter for six bits. -/
def base64Digit (n : Nat) : Char :=
  if n < 26 then Char.ofNat (n + 65)
  else if n < 52 then Char.ofNat (n + 71)
  else if n < 62 then Char.ofNat (n - 4)
  else if n = 62 then '+'
  else '/'

/-- The six bits of a letter. -/
def base64Value (c : Char) : Option Nat :=
  let n := c.toNat
  if 65 ≤ n ∧ n ≤ 90 then some (n - 65)
  else if 97 ≤ n ∧ n ≤ 122 then some (n - 71)
  else if 48 ≤ n ∧ n ≤ 57 then some (n + 4)
  else if c = '+' then some 62
  else if c = '/' then some 63
  else none

theorem base64Value_digit {n : Nat} (h : n < 64) : base64Value (base64Digit n) = some n := by
  have hall : ∀ n < 64, base64Value (base64Digit n) = some n := by decide +kernel
  exact hall n h

def base64Digits : List UInt8 → List Char
  | a :: b :: c :: rest =>
    base64Digit (a.toNat / 4) :: base64Digit (a.toNat % 4 * 16 + b.toNat / 16) ::
      base64Digit (b.toNat % 16 * 4 + c.toNat / 64) :: base64Digit (c.toNat % 64) ::
        base64Digits rest
  | [a, b] =>
    [base64Digit (a.toNat / 4), base64Digit (a.toNat % 4 * 16 + b.toNat / 16),
      base64Digit (b.toNat % 16 * 4)]
  | [a] => [base64Digit (a.toNat / 4), base64Digit (a.toNat % 4 * 16)]
  | [] => []

def base64Bytes : List Char → Option (List UInt8)
  | a :: b :: c :: d :: rest => do
    let a ← base64Value a
    let b ← base64Value b
    let c ← base64Value c
    let d ← base64Value d
    let bytes ← base64Bytes rest
    return UInt8.ofNat (a * 4 + b / 16) :: UInt8.ofNat (b % 16 * 16 + c / 4) ::
      UInt8.ofNat (c % 4 * 64 + d) :: bytes
  | [a, b, c] => do
    let a ← base64Value a
    let b ← base64Value b
    let c ← base64Value c
    if c % 4 = 0 then
      return [UInt8.ofNat (a * 4 + b / 16), UInt8.ofNat (b % 16 * 16 + c / 4)]
    else failure
  | [a, b] => do
    let a ← base64Value a
    let b ← base64Value b
    if b % 16 = 0 then return [UInt8.ofNat (a * 4 + b / 16)] else failure
  | [_] => none
  | [] => some []

theorem ofNat_eq_of_toNat (byte : UInt8) {n : Nat} (h : n = byte.toNat) : UInt8.ofNat n = byte := by
  rw [h, UInt8.ofNat_toNat]

theorem base64Bytes_digits (bytes : List UInt8) :
    base64Bytes (base64Digits bytes) = some bytes := by
  induction bytes using base64Digits.induct with
  | case1 a b c rest ih =>
    have ha := a.toNat_lt
    have hb := b.toNat_lt
    have hc := c.toNat_lt
    rw [base64Digits, base64Bytes, base64Value_digit (by omega), base64Value_digit (by omega),
      base64Value_digit (by omega), base64Value_digit (by omega), ih]
    simp only [Option.bind_eq_bind, Option.bind_some, Option.pure_def]
    rw [ofNat_eq_of_toNat a (by omega), ofNat_eq_of_toNat b (by omega),
      ofNat_eq_of_toNat c (by omega)]
  | case2 a b =>
    have ha := a.toNat_lt
    have hb := b.toNat_lt
    rw [base64Digits, base64Bytes, base64Value_digit (by omega), base64Value_digit (by omega),
      base64Value_digit (by omega)]
    simp only [Option.bind_eq_bind, Option.bind_some, Option.pure_def]
    rw [if_pos (by omega), ofNat_eq_of_toNat a (by omega), ofNat_eq_of_toNat b (by omega)]
  | case3 a =>
    have ha := a.toNat_lt
    rw [base64Digits, base64Bytes, base64Value_digit (by omega), base64Value_digit (by omega)]
    simp only [Option.bind_eq_bind, Option.bind_some, Option.pure_def]
    rw [if_pos (by omega), ofNat_eq_of_toNat a (by omega)]
  | case4 => rfl

/-- What holds of the letters holds of every digit. -/
theorem forall_digits {p : Char → Prop} (h : ∀ n < 64, p (base64Digit n)) (bytes : List UInt8) :
    ∀ c ∈ base64Digits bytes, p c := by
  induction bytes using base64Digits.induct with
  | case1 a b c rest ih =>
    have ha := a.toNat_lt
    have hb := b.toNat_lt
    have hc := c.toNat_lt
    simp only [base64Digits, List.forall_mem_cons]
    exact ⟨h _ (by omega), h _ (by omega), h _ (by omega), h _ (by omega), ih⟩
  | case2 a b =>
    have ha := a.toNat_lt
    have hb := b.toNat_lt
    simp only [base64Digits, List.forall_mem_cons]
    exact ⟨h _ (by omega), h _ (by omega), h _ (by omega), by simp⟩
  | case3 a =>
    have ha := a.toNat_lt
    simp only [base64Digits, List.forall_mem_cons]
    exact ⟨h _ (by omega), h _ (by omega), by simp⟩
  | case4 => simp [base64Digits]

end Synch.Support
