import Mathlib.Tactic.Ring

/-!
# A compact binary format

Readers over byte lists and the writers they invert: single bytes, integers of
at most 64 bits in groups of seven with a continuation bit, signed integers
folded onto them, byte runs, text, and optional values.
-/

namespace Synch.Support

open List

/-- A reader takes a value off the front of some bytes, or fails. -/
abbrev Reader := StateT (List UInt8) Option

/-- Text whose length is a machine word. -/
@[ext]
structure Text where
  value : String
  size_lt : value.utf8ByteSize < 2 ^ 64
deriving DecidableEq

/-! ## Readers -/

def readByte : Reader UInt8
  | [] => none
  | b :: rest => some (b, rest)

/-- Read groups of seven bits, at most `left` of them after the first.  The last
group the integer has room for is at most `top`. -/
def readVarintFrom (top : Nat) :
    (left shift acc : Nat) → List UInt8 → Option (Nat × List UInt8)
  | _, _, _, [] => none
  | left, shift, acc, b :: rest =>
    if b.toNat < 128 then
      if left = 0 ∧ top < b.toNat then none
      else some (acc + b.toNat * 2 ^ shift, rest)
    else
      match left with
      | 0 => none
      | left + 1 =>
        readVarintFrom top left (shift + 7) (acc + b.toNat % 128 * 2 ^ shift) rest

/-- An integer of at most 64 bits. -/
def readVarint : Reader Nat :=
  readVarintFrom 1 9 0 0

/-- An integer of at most 32 bits. -/
def readVarint32 : Reader Nat :=
  readVarintFrom 15 4 0 0

/-- The signed integer an unsigned one stands for. -/
def unfoldSign (n : Nat) : Int :=
  if n % 2 = 0 then (n / 2 : Nat) else -((n / 2 : Nat) : Int) - 1

def readSigned : Reader Int64 := do
  let n ← readVarint
  return Int64.ofInt (unfoldSign n)

def readBytes (count : Nat) : Reader (List UInt8) := fun input =>
  if input.length < count then none else some (input.take count, input.drop count)

/-- The text some bytes encode, if they are valid UTF-8. -/
def textOf (bytes : List UInt8) : Option String :=
  String.fromUTF8? ⟨bytes.toArray⟩

def readText : Reader Text := do
  let count ← readVarint
  let bytes ← readBytes count
  match textOf bytes with
  | none => failure
  | some value =>
    if h : value.utf8ByteSize < 2 ^ 64 then return ⟨value, h⟩ else failure

def readOption {α : Type} (read : Reader α) : Reader (Option α) := do
  match ← readByte with
  | 0 => return none
  | 1 =>
    let value ← read
    return some value
  | _ => failure

def readMany {α : Type} (read : Reader α) : Nat → Reader (List α)
  | 0 => return []
  | count + 1 => do
    let value ← read
    let values ← readMany read count
    return value :: values

def readSeq {α : Type} (read : Reader α) : Reader (List α) := do
  let count ← readVarint
  readMany read count

def writeVarint (n : Nat) : List UInt8 :=
  if n < 128 then [UInt8.ofNat n]
  else UInt8.ofNat (n % 128 + 128) :: writeVarint (n / 128)
termination_by n
decreasing_by omega

/-- The unsigned integer that stands for a signed one. -/
def foldSign (i : Int) : Nat :=
  if 0 ≤ i then (2 * i).toNat else (-2 * i - 1).toNat

def writeSigned (i : Int64) : List UInt8 :=
  writeVarint (foldSign i.toInt)

def writeText (text : Text) : List UInt8 :=
  writeVarint text.value.utf8ByteSize ++ text.value.toByteArray.data.toList

def writeOption {α : Type} (write : α → List UInt8) : Option α → List UInt8
  | none => [0]
  | some value => 1 :: write value

def writeSeq {α : Type} (write : α → List UInt8) (values : List α) : List UInt8 :=
  writeVarint values.length ++ values.flatMap write

section Monad

variable {α β : Type} {read : Reader α} {next : α → Reader β} {input : List UInt8}

theorem bind_of_none (h : read input = none) : (read >>= next) input = none := by
  change (read input).bind _ = none
  rw [h]
  rfl

variable {rest : List UInt8}

theorem bind_of_some {a : α} (h : read input = some (a, rest)) :
    (read >>= next) input = next a rest := by
  change (read input).bind _ = _
  rw [h]
  rfl

theorem bind_eq_some {b : β} (h : (read >>= next) input = some (b, rest)) :
    ∃ a middle, read input = some (a, middle) ∧ next a middle = some (b, rest) := by
  cases hread : read input with
  | none =>
    rw [bind_of_none hread] at h
    cases h
  | some result =>
    obtain ⟨a, middle⟩ := result
    rw [bind_of_some hread] at h
    exact ⟨a, middle, rfl, h⟩

theorem readOption_eq_some {value : Option α} (h : readOption read input = some (value, rest)) :
    (value = none ∧ input = 0 :: rest) ∨
      ∃ a body, value = some a ∧ input = 1 :: body ∧ read body = some (a, rest) := by
  cases input with
  | nil => cases h
  | cons tag body =>
    by_cases hzero : tag = 0
    · subst hzero
      cases h
      exact .inl ⟨rfl, rfl⟩
    · by_cases hone : tag = 1
      · subst hone
        change (read >>= fun value => pure (some value)) body = _ at h
        obtain ⟨a, afterValue, hread, hpure⟩ := bind_eq_some h
        cases hpure
        exact .inr ⟨a, body, rfl, rfl, hread⟩
      · rw [readOption, bind_of_some (rfl : readByte (tag :: body) = some (tag, body))] at h
        split at h
        · exact absurd rfl hzero
        · exact absurd rfl hone
        · cases h

theorem readOption_some {a : α} {body : List UInt8} (h : read body = some (a, rest)) :
    readOption read (1 :: body) = some (some a, rest) := by
  change (read >>= fun value => pure (some value)) body = _
  rw [bind_of_some h]
  rfl

theorem length_of_readMany {count : Nat} {values : List α}
    (h : readMany read count input = some (values, rest)) : values.length = count := by
  induction count generalizing values input with
  | zero =>
    cases h
    rfl
  | succ count ih =>
    obtain ⟨value, middle, -, h⟩ := bind_eq_some h
    obtain ⟨values, afterValues, hvalues, h⟩ := bind_eq_some h
    cases h
    rw [length_cons, ih hvalues]

end Monad

/-! ## Reading back what was written -/

/-- The reader takes these bytes for the value, whatever follows. -/
def Reads {α : Type} (read : Reader α) (value : α) (bytes : List UInt8) : Prop :=
  ∀ rest, read (bytes ++ rest) = some (value, rest)

section Reads

variable {α β : Type}

theorem reads_pure (value : α) : Reads (pure value) value [] :=
  fun _ => rfl

variable {read : Reader α} {n : Nat} {write : α → List UInt8}

theorem Reads.bind {next : α → Reader β} {a : α} {b : β} {first second : List UInt8}
    (h : Reads read a first) (h' : Reads (next a) b second) :
    Reads (read >>= next) b (first ++ second) := by
  intro rest
  rw [append_assoc, bind_of_some (h (second ++ rest))]
  exact h' rest

theorem reads_byte (b : UInt8) : Reads readByte b [b] :=
  fun _ => rfl

theorem toNat_ofNat_of_lt (h : n < 256) : (UInt8.ofNat n).toNat = n := by
  rw [UInt8.toNat_ofNat']
  exact Nat.mod_eq_of_lt h

theorem readVarintFrom_nil (top left shift acc : Nat) :
    readVarintFrom top left shift acc [] = none := by
  rw [readVarintFrom.eq_def]

theorem readVarintFrom_cons (top left shift acc : Nat) (b : UInt8) (rest : List UInt8) :
    readVarintFrom top left shift acc (b :: rest) =
      if b.toNat < 128 then
        if left = 0 ∧ top < b.toNat then none
        else some (acc + b.toNat * 2 ^ shift, rest)
      else
        match left with
        | 0 => none
        | left + 1 =>
          readVarintFrom top left (shift + 7) (acc + b.toNat % 128 * 2 ^ shift)
            rest := by
  cases left <;> rfl

theorem readVarintFrom_writeVarint {top : Nat} (htop : top < 128) (left shift acc : Nat)
    (hn : n < (top + 1) * 128 ^ left) (rest : List UInt8) :
    readVarintFrom top left shift acc (writeVarint n ++ rest) =
      some (acc + n * 2 ^ shift, rest) := by
  induction left generalizing n shift acc with
  | zero =>
    have hsmall : n < top + 1 := by simpa using hn
    have hbyte := toNat_ofNat_of_lt (by omega : n < 256)
    rw [writeVarint, if_pos (by omega), singleton_append, readVarintFrom_cons,
      hbyte, if_pos (by omega), if_neg (by omega)]
  | succ left ih =>
    by_cases hsmall : n < 128
    · have hbyte := toNat_ofNat_of_lt (by omega : n < 256)
      rw [writeVarint, if_pos hsmall, singleton_append, readVarintFrom_cons, hbyte,
        if_pos hsmall, if_neg (by omega)]
    · have hbyte := toNat_ofNat_of_lt (by omega : n % 128 + 128 < 256)
      have hrest : n / 128 < (top + 1) * 128 ^ left := by
        rw [Nat.div_lt_iff_lt_mul (by decide)]
        calc
          n < (top + 1) * 128 ^ (left + 1) := hn
          _ = (top + 1) * 128 ^ left * 128 := by ring
      have hlow : (n % 128 + 128) % 128 = n % 128 := by omega
      have hvalue : acc + n % 128 * 2 ^ shift + n / 128 * 2 ^ (shift + 7) =
          acc + n * 2 ^ shift := by
        calc
          acc + n % 128 * 2 ^ shift + n / 128 * 2 ^ (shift + 7)
              = acc + (128 * (n / 128) + n % 128) * 2 ^ shift := by ring
          _ = acc + n * 2 ^ shift := by rw [Nat.div_add_mod]
      rw [writeVarint, if_neg hsmall, cons_append, readVarintFrom_cons, hbyte, if_neg (by omega)]
      dsimp only
      rw [hlow, ih (shift + 7) (acc + n % 128 * 2 ^ shift) hrest, hvalue]

theorem reads_varint (hn : n < 2 ^ 64) : Reads readVarint n (writeVarint n) := by
  intro rest
  have hread := readVarintFrom_writeVarint (by decide : 1 < 128) 9 0 0 hn rest
  rw [readVarint, hread]
  simp

theorem reads_varint32 (hn : n < 2 ^ 32) : Reads readVarint32 n (writeVarint n) := by
  intro rest
  have hread := readVarintFrom_writeVarint (by decide : 15 < 128) 4 0 0 hn rest
  rw [readVarint32, hread]
  simp

theorem unfoldSign_foldSign (i : Int) : unfoldSign (foldSign i) = i := by
  unfold foldSign unfoldSign
  split <;> split <;> omega

theorem foldSign_lt (i : Int64) : foldSign i.toInt < 2 ^ 64 := by
  have hlower := Int64.le_toInt i
  have hupper := Int64.toInt_lt i
  unfold foldSign
  split <;> omega

theorem reads_signed (i : Int64) : Reads readSigned i (writeSigned i) := by
  rw [← append_nil (writeSigned i)]
  refine (reads_varint (foldSign_lt i)).bind ?_
  rw [unfoldSign_foldSign, Int64.ofInt_toInt]
  exact reads_pure i

theorem reads_bytes (bytes : List UInt8) : Reads (readBytes bytes.length) bytes bytes := by
  intro rest
  have hlong : ¬(bytes ++ rest).length < bytes.length := by
    rw [length_append]
    omega
  rw [readBytes, if_neg hlong, take_left, drop_left]

theorem textOf_toByteArray (s : String) : textOf s.toByteArray.data.toList = some s := by
  unfold textOf String.fromUTF8?
  have hbytes : (⟨s.toByteArray.data.toList.toArray⟩ : ByteArray) = s.toByteArray := by
    simp
  rw [hbytes, dif_pos s.isValidUTF8]
  rfl

theorem length_toByteArray (s : String) : s.toByteArray.data.toList.length = s.utf8ByteSize := by
  rw [Array.length_toList]
  rfl

theorem reads_text (text : Text) : Reads readText text (writeText text) := by
  have hbytes := reads_bytes text.value.toByteArray.data.toList
  rw [length_toByteArray] at hbytes
  rw [← append_nil (writeText text), writeText, append_assoc]
  refine (reads_varint text.size_lt).bind (hbytes.bind ?_)
  rw [textOf_toByteArray]
  change Reads (dite _ _ _) text []
  rw [dif_pos text.size_lt]
  exact reads_pure text

theorem reads_option (h : ∀ value, Reads read value (write value)) (value : Option α) :
    Reads (readOption read) value (writeOption write value) := by
  cases value with
  | none => exact (reads_byte 0).bind (reads_pure none)
  | some a =>
    rw [← append_nil (writeOption write (some a))]
    refine (reads_byte 1).bind ((h a).bind ?_)
    exact reads_pure (some a)

theorem reads_many (h : ∀ value, Reads read value (write value)) (values : List α) :
    Reads (readMany read values.length) values (values.flatMap write) := by
  induction values with
  | nil => exact reads_pure []
  | cons value values ih =>
    rw [flatMap_cons, ← append_nil (values.flatMap write)]
    refine (h value).bind (ih.bind ?_)
    exact reads_pure (value :: values)

theorem reads_seq (h : ∀ value, Reads read value (write value)) {values : List α}
    (hlength : values.length < 2 ^ 64) : Reads (readSeq read) values (writeSeq write values) :=
  (reads_varint hlength).bind (reads_many h values)

end Reads

end Synch.Support
