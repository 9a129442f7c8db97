import Mathlib.Data.Nat.Basic
import Mathlib.Algebra.Group.Nat.Defs
import Synch.Support.Fallible

/-!
# Device keys

A device key is a point of the curve in its 32 bytes, written in z-base-32.  Both
the text's decoder and the test for a point belong to libraries and are
parameters.  The decoder that the verified core carries is one of them: it is
strict, so that texts of one length that decode to the same bytes are the same.
-/

namespace Synch.Membership

open List Synch.Support

/-- The libraries behind a device key: the z-base-32 decoder with its complaints,
the test for a point, and the complaint about bytes that are no key. -/
structure KeyLib where
  decode : String → Except String (List UInt8)
  onCurve : List UInt8 → Bool
  complaint : List UInt8 → String

structure NodeId (lib : KeyLib) where
  bytes : List UInt8
  length_bytes : bytes.length = 32
  onCurve_bytes : lib.onCurve bytes = true

variable {lib : KeyLib}

instance : DecidableEq (NodeId lib) := fun a b =>
  decidable_of_iff (a.bytes = b.bytes) (by cases a; cases b; simp)

theorem NodeId.eq_of_bytes {a b : NodeId lib} (h : a.bytes = b.bytes) : a = b := by
  obtain ⟨bytes, _, _⟩ := a
  cases h
  rfl

def NodeId.fromBytes (lib : KeyLib) (bytes : List UInt8) : Option (NodeId lib) :=
  if h : bytes.length = 32 ∧ lib.onCurve bytes = true then some ⟨bytes, h.1, h.2⟩ else none

@[simp] theorem NodeId.fromBytes_bytes (key : NodeId lib) :
    NodeId.fromBytes lib key.bytes = some key := by
  rw [fromBytes, dif_pos ⟨key.length_bytes, key.onCurve_bytes⟩]

variable {bytes output : List UInt8} {text : String} {bits pending : Nat}

theorem NodeId.bytes_of_fromBytes {key : NodeId lib} (h : NodeId.fromBytes lib bytes = some key) :
    key.bytes = bytes := by
  unfold fromBytes at h
  split at h
  · cases h
    rfl
  · cases h

/-- The key a text spells. -/
def NodeId.fromZ32 (lib : KeyLib) (text : String) : Except String (NodeId lib) := do
  let bytes ← lib.decode text
  orRefuse (NodeId.fromBytes lib bytes) (lib.complaint bytes)

theorem NodeId.fromZ32_eq_ok_iff {key : NodeId lib} :
    NodeId.fromZ32 lib text = .ok key ↔ lib.decode text = .ok key.bytes := by
  rw [fromZ32, bind_eq_ok_iff]
  simp only [orRefuse_eq_ok_iff]
  constructor
  · rintro ⟨bytes, hbytes, hkey⟩
    rw [hbytes, NodeId.bytes_of_fromBytes hkey]
  · intro h
    exact ⟨key.bytes, h, key.fromBytes_bytes⟩

theorem NodeId.fromZ32_off_curve
    (hbytes : lib.decode text = .ok bytes) (hcurve : lib.onCurve bytes = false) :
    NodeId.fromZ32 lib text = .error (lib.complaint bytes) := by
  have hnone : NodeId.fromBytes lib bytes = none :=
    dif_neg fun h => Bool.false_ne_true (hcurve.symm.trans h.2)
  rw [fromZ32, hbytes]
  change orRefuse (NodeId.fromBytes lib bytes) _ = _
  rw [hnone]
  rfl

/-! ## The text -/

def alphabet : List Char :=
  "ybndrfg8ejkmcpqxot1uwisza345h769".toList

/-- What a strict z-base-32 decoder promises: it accepts its alphabet only, and no
two texts of one length for the same bytes. -/
structure KeyLib.Strict (lib : KeyLib) : Prop where
  alphabet : ∀ {text bytes}, lib.decode text = .ok bytes → ∀ c ∈ text.toList, c ∈ alphabet
  spelling : ∀ {text other bytes}, lib.decode text = .ok bytes → lib.decode other = .ok bytes →
    text.length = other.length → text = other

/-- Five bits for each character, a byte out for every eight, and nothing left over. -/
def decodeDigits : List Char → Nat → Nat → List UInt8 → Option (List UInt8)
  | [], _, pending, output => if pending == 0 then some output.reverse else none
  | c :: rest, bits, pending, output =>
    let digit := alphabet.idxOf c
    if digit ≥ 32 then none
    else
      let bits := bits + 5
      let pending := pending * 32 + digit
      if bits ≥ 8 then
        let remaining := bits - 8
        let divisor := 2 ^ remaining
        decodeDigits rest remaining (pending % divisor) ((pending / divisor).toUInt8 :: output)
      else decodeDigits rest bits pending output

/-- The bytes of an unpadded text. -/
def decodeText (text : String) : Except String (List UInt8) :=
  if [0, 2, 4, 5, 7].contains (text.toList.length % 8) then
    orRefuse (decodeDigits text.toList 0 0 []) "failed to decode base32 string"
  else .error "failed to decode base32 string"

theorem length_alphabet : alphabet.length = 32 := by
  decide

theorem mem_alphabet_of_idxOf_lt {c : Char} (h : ¬alphabet.idxOf c ≥ 32) : c ∈ alphabet := by
  rw [← idxOf_lt_length_iff, length_alphabet]
  omega

/-- What one character does to a decoder that accepts the text. -/
theorem decodeDigits_cons_eq_some {c : Char} {rest : List Char}
    (h : decodeDigits (c :: rest) bits pending output = some bytes) :
    alphabet.idxOf c < 32 ∧
      (bits + 5 < 8 →
        decodeDigits rest (bits + 5) (pending * 32 + alphabet.idxOf c) output = some bytes) ∧
      (8 ≤ bits + 5 →
        decodeDigits rest (bits + 5 - 8)
          ((pending * 32 + alphabet.idxOf c) % 2 ^ (bits + 5 - 8))
          (((pending * 32 + alphabet.idxOf c) / 2 ^ (bits + 5 - 8)).toUInt8 :: output) =
            some bytes) := by
  simp only [decodeDigits] at h
  split at h
  · cases h
  · refine ⟨by omega, fun hbits => ?_, fun hbits => ?_⟩
    · rwa [if_neg (by omega)] at h
    · rwa [if_pos hbits] at h

theorem mem_alphabet_of_decodeDigits {text : List Char}
    (h : decodeDigits text bits pending output = some bytes) : ∀ c ∈ text, c ∈ alphabet := by
  induction text generalizing bits pending output with
  | nil => simp
  | cons c rest ih =>
    obtain ⟨hdigit, hshort, hlong⟩ := decodeDigits_cons_eq_some h
    have hrest : ∀ c ∈ rest, c ∈ alphabet := by
      rcases Nat.lt_or_ge (bits + 5) 8 with hbits | hbits
      · exact ih (hshort hbits)
      · exact ih (hlong hbits)
    exact forall_mem_cons.mpr ⟨mem_alphabet_of_idxOf_lt (by omega), hrest⟩

/-- A number below 256 times a divisor is its quotient's byte and its remainder. -/
theorem eq_of_byte_of_mod {n m divisor : Nat} (hn : n < divisor * 256) (hm : m < divisor * 256)
    (hbyte : (n / divisor).toUInt8 = (m / divisor).toUInt8) (hmod : n % divisor = m % divisor) :
    n = m := by
  have hquotient := congrArg UInt8.toNat hbyte
  simp only [Nat.toUInt8_eq, UInt8.toNat_ofNat'] at hquotient
  rw [Nat.mod_eq_of_lt (Nat.div_lt_of_lt_mul hn),
    Nat.mod_eq_of_lt (Nat.div_lt_of_lt_mul hm)] at hquotient
  rw [← Nat.div_add_mod n divisor, hquotient, hmod, Nat.div_add_mod]

/-- The decoder's state before a text and the text itself can be read off the
bytes, given the text's length. -/
theorem decodeDigits_inj {text text' : List Char} (hlength : text.length = text'.length)
    {pending' : Nat} {output' : List UInt8} (hbits : bits < 8) (hpending : pending < 2 ^ bits)
    (hpending' : pending' < 2 ^ bits) (h : decodeDigits text bits pending output = some bytes)
    (h' : decodeDigits text' bits pending' output' = some bytes) :
    text = text' ∧ pending = pending' ∧ output = output' := by
  induction text generalizing text' bits pending pending' output output' with
  | nil =>
    obtain rfl : text' = [] := length_eq_zero_iff.mp hlength.symm
    simp only [decodeDigits] at h h'
    split_ifs at h h' with hzero hzero'
    have hreverse : output.reverse = output'.reverse :=
      (Option.some.inj h).trans (Option.some.inj h').symm
    exact ⟨rfl, by rw [eq_of_beq hzero, eq_of_beq hzero'], reverse_inj.mp hreverse⟩
  | cons c rest ih =>
    obtain ⟨c', rest', rfl⟩ : ∃ c' rest', text' = c' :: rest' :=
      exists_cons_of_length_pos (by rw [← hlength]; simp)
    have hlength' : rest.length = rest'.length := by simpa using hlength
    obtain ⟨hdigit, hshort, hlong⟩ := decodeDigits_cons_eq_some h
    obtain ⟨hdigit', hshort', hlong'⟩ := decodeDigits_cons_eq_some h'
    -- the pending bits with the new digit, on either side
    have hsame : rest = rest' ∧
        pending * 32 + alphabet.idxOf c = pending' * 32 + alphabet.idxOf c' ∧
        output = output' := by
      have hpow : 2 ^ (bits + 5) = 2 ^ bits * 32 := Nat.pow_add 2 bits 5
      rcases Nat.lt_or_ge (bits + 5) 8 with hsmall | hlarge
      · exact ih hlength' hsmall (by rw [hpow]; omega) (by rw [hpow]; omega)
          (hshort hsmall) (hshort' hsmall)
      · have hdivisor : 0 < 2 ^ (bits + 5 - 8) := Nat.two_pow_pos _
        obtain ⟨hrest, hlow, hout⟩ := ih hlength' (by omega) (Nat.mod_lt _ hdivisor)
          (Nat.mod_lt _ hdivisor) (hlong hlarge) (hlong' hlarge)
        obtain ⟨hbyte, hout⟩ := cons.inj hout
        have hsplit : 2 ^ (bits + 5) = 2 ^ (bits + 5 - 8) * 256 := by
          rw [show 256 = 2 ^ 8 from rfl, ← Nat.pow_add, Nat.sub_add_cancel hlarge]
        exact ⟨hrest, eq_of_byte_of_mod (by omega) (by omega) hbyte hlow, hout⟩
    obtain ⟨hrest, hvalue, hout⟩ := hsame
    have hindex : alphabet.idxOf c = alphabet.idxOf c' := by omega
    have hmem : c ∈ alphabet := mem_alphabet_of_idxOf_lt (by omega)
    exact ⟨by rw [hrest, (idxOf_inj hmem).mp hindex], by omega, hout⟩

/-! ## The curve -/

/-- The prime of the field, and the curve's coefficient. -/
def fieldPrime : Nat := 2 ^ 255 - 19

def curveD : Nat :=
  37095705934669439343138083508754565189542113879843219016388785533085940283555

def littleEndian (bytes : List UInt8) : Nat :=
  bytes.foldr (fun byte value => byte.toNat + 256 * value) 0

/-- A power modulo the prime, by the exponent's bits. -/
def powMod : Nat → Nat → Nat → Nat
  | 0, _, _ => 1
  | bits + 1, base, exponent =>
    let half := powMod bits (base * base % fieldPrime) (exponent / 2)
    if exponent % 2 = 1 then base * half % fieldPrime else half

/-- Whether the bytes hold the second coordinate of a point: the first one's
square is then a square. -/
def isPoint (bytes : List UInt8) : Bool :=
  let y := littleEndian bytes % 2 ^ 255 % fieldPrime
  let u := (y * y + (fieldPrime - 1)) % fieldPrime
  let v := (curveD * y * y + 1) % fieldPrime
  let w := u * v % fieldPrime
  w == 0 || powMod 255 w ((fieldPrime - 1) / 2) == 1

/-- The decoder and the curve in use. -/
def ed25519 : KeyLib where
  decode := decodeText
  onCurve := isPoint
  complaint := fun bytes =>
    if bytes.length = 32 then "data is not a valid public key" else "invalid length"

theorem decodeText_eq_ok (h : decodeText text = .ok bytes) :
    decodeDigits text.toList 0 0 [] = some bytes := by
  unfold decodeText at h
  split_ifs at h
  exact orRefuse_eq_ok_iff.mp h

theorem ed25519_strict : ed25519.Strict where
  alphabet := fun h => mem_alphabet_of_decodeDigits (decodeText_eq_ok h)
  spelling := fun {text other bytes} h h' hlength => by
    have hlists : text.toList.length = other.toList.length := by
      rwa [String.length_toList, String.length_toList]
    have hsame := (decodeDigits_inj hlists (by decide) (by decide) (by decide)
      (decodeText_eq_ok h) (decodeText_eq_ok h')).1
    exact String.toList_inj.mp hsame

end Synch.Membership
