import Mathlib.Algebra.Group.Nat.Defs

/-!
# Object addresses
-/

namespace Synch

/-- The 32-byte address of an object or a trie node. -/
structure Hash where
  bytes : List UInt8
  length_bytes : bytes.length = 32
deriving DecidableEq, Repr

def hexDigits (byte : UInt8) : List Char :=
  [Nat.digitChar (byte.toNat / 16), Nat.digitChar (byte.toNat % 16)]

def Hash.toHex (hash : Hash) : String :=
  String.ofList (hash.bytes.flatMap hexDigits)

theorem Hash.eq_of_bytes {a b : Hash} (h : a.bytes = b.bytes) : a = b := by
  obtain ⟨bytes, length_bytes⟩ := a
  cases h
  rfl

/-- The address whose bytes are a number's, most significant first. -/
def Hash.ofNat (n : Nat) : Hash where
  bytes := (List.range 32).map fun i => UInt8.ofNat (n / 256 ^ (31 - i))
  length_bytes := by simp

end Synch
