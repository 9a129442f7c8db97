import Synch.Hash
import Synch.Support.Cursor

/-!
# The postcard format

Records travel in the postcard format, which is a crate of its own.  It enters
as the readers and writers it gives for each data type, and `Documented` says
what its wire format specification promises for them.
-/

namespace Synch.Records

open Synch.Support

/-! ## Words and addresses on the wire -/

def readU64 : Reader UInt64 := do
  let n ← readVarint
  return UInt64.ofNat n

def readU32 : Reader UInt32 := do
  let n ← readVarint32
  return UInt32.ofNat n

def readHash : Reader Hash := fun input =>
  if h : 32 ≤ input.length then
    some (⟨input.take 32, by rw [List.length_take]; omega⟩, input.drop 32)
  else none

theorem reads_u64 (n : UInt64) : Reads readU64 n (writeVarint n.toNat) := by
  rw [← List.append_nil (writeVarint n.toNat)]
  refine (reads_varint n.toNat_lt).bind ?_
  rw [UInt64.ofNat_toNat]
  exact reads_pure n

theorem reads_u32 (n : UInt32) : Reads readU32 n (writeVarint n.toNat) := by
  rw [← List.append_nil (writeVarint n.toNat)]
  refine (reads_varint32 n.toNat_lt).bind ?_
  rw [UInt32.ofNat_toNat]
  exact reads_pure n

theorem reads_hash (hash : Hash) : Reads readHash hash hash.bytes := by
  intro rest
  have hlength := hash.length_bytes
  have hlong : 32 ≤ (hash.bytes ++ rest).length := by
    rw [List.length_append]
    omega
  rw [readHash, dif_pos hlong]
  have htake : (hash.bytes ++ rest).take 32 = hash.bytes := List.take_left' hlength
  have hdrop : (hash.bytes ++ rest).drop 32 = rest := List.drop_left' hlength
  rw [hdrop]
  congr 2
  exact Hash.eq_of_bytes htake

/-- The readers and writers of the postcard crate. -/
structure Postcard where
  takeU8 : Reader UInt8
  takeU32 : Reader UInt32
  takeU64 : Reader UInt64
  takeI64 : Reader Int64
  takeArray32 : Reader Hash
  takeStr : Reader Text
  takeVariant : Reader Nat
  takeOption : {α : Type} → Reader α → Reader (Option α)
  takeSeq : {α : Type} → Reader α → Reader (List α)
  putU8 : UInt8 → List UInt8
  putU32 : UInt32 → List UInt8
  putU64 : UInt64 → List UInt8
  putI64 : Int64 → List UInt8
  putArray32 : Hash → List UInt8
  putStr : Text → List UInt8
  putVariant : Nat → List UInt8
  putOption : {α : Type} → (α → List UInt8) → Option α → List UInt8
  putSeq : {α : Type} → (α → List UInt8) → List α → List UInt8

namespace Postcard

/-- The wire format: a byte as it is, integers as groups of seven bits with
signed ones folded, fixed arrays of bytes as they are, text and sequences after
their length, optional values after a tag, and the index of an enum's variant as
a 32-bit integer. -/
def specified : Postcard where
  takeU8 := readByte
  takeU32 := readU32
  takeU64 := readU64
  takeI64 := readSigned
  takeArray32 := readHash
  takeStr := readText
  takeVariant := readVarint32
  takeOption := readOption
  takeSeq := readSeq
  putU8 b := [b]
  putU32 n := writeVarint n.toNat
  putU64 n := writeVarint n.toNat
  putI64 := writeSigned
  putArray32 hash := hash.bytes
  putStr := writeText
  putVariant := writeVarint
  putOption := writeOption
  putSeq := writeSeq

/-- The crate does what its format specification says. -/
structure Documented (postcard : Postcard) : Prop where
  takeU8 : ∀ input, postcard.takeU8 input = readByte input
  takeU32 : ∀ input, postcard.takeU32 input = readU32 input
  takeU64 : ∀ input, postcard.takeU64 input = readU64 input
  takeI64 : ∀ input, postcard.takeI64 input = readSigned input
  takeArray32 : ∀ input, postcard.takeArray32 input = readHash input
  takeStr : ∀ input, postcard.takeStr input = readText input
  takeVariant : ∀ input, postcard.takeVariant input = readVarint32 input
  takeOption : ∀ {α : Type} (read : Reader α) input,
    postcard.takeOption read input = readOption read input
  takeSeq : ∀ {α : Type} (read : Reader α) input, postcard.takeSeq read input = readSeq read input
  putU8 : ∀ b, postcard.putU8 b = [b]
  putU32 : ∀ n, postcard.putU32 n = writeVarint n.toNat
  putU64 : ∀ n, postcard.putU64 n = writeVarint n.toNat
  putI64 : ∀ i, postcard.putI64 i = writeSigned i
  putArray32 : ∀ hash, postcard.putArray32 hash = hash.bytes
  putStr : ∀ text, postcard.putStr text = writeText text
  putVariant : ∀ index, postcard.putVariant index = writeVarint index
  putOption : ∀ {α : Type} (write : α → List UInt8) value,
    postcard.putOption write value = writeOption write value
  putSeq : ∀ {α : Type} (write : α → List UInt8) values,
    postcard.putSeq write values = writeSeq write values

theorem Documented.eq_specified {postcard : Postcard} (h : postcard.Documented) :
    postcard = specified := by
  obtain ⟨takeU8, takeU32, takeU64, takeI64, takeArray32, takeStr, takeVariant,
    takeOption, takeSeq, putU8, putU32, putU64, putI64, putArray32, putStr, putVariant,
    putOption, putSeq⟩ := postcard
  rw [specified]
  congr
  · exact funext h.takeU8
  · exact funext h.takeU32
  · exact funext h.takeU64
  · exact funext h.takeI64
  · exact funext h.takeArray32
  · exact funext h.takeStr
  · exact funext h.takeVariant
  · funext α read input
    exact h.takeOption read input
  · funext α read input
    exact h.takeSeq read input
  · exact funext h.putU8
  · exact funext h.putU32
  · exact funext h.putU64
  · exact funext h.putI64
  · exact funext h.putArray32
  · exact funext h.putStr
  · exact funext h.putVariant
  · funext α write value
    exact h.putOption write value
  · funext α write values
    exact h.putSeq write values

theorem documented_specified : specified.Documented := by
  constructor <;> intros <;> rfl

end Postcard

end Synch.Records
