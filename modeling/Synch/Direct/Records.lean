import Mathlib.Data.BitVec

/-!
# Records of a direct stream

A direction of a direct connection is a sequence of records, each sealed under the
direction's key with a nonce of its own: the IV with the record's number XORed in.
The cipher is ideal: a record opens if it was sealed, under the nonce and header it
is opened with.
-/

namespace Synch.Direct

abbrev Bytes := List UInt8

def headerLen : Nat := 5

def tagLen : Nat := 16

/-- The most plaintext one record carries. -/
def recordLen : Nat := 256 * 1024

def kindData : UInt8 := 0

def kindFinal : UInt8 := 1

/-- One direction's key: the IV its nonces are made from and the record counter. -/
structure RecordKey where
  iv : BitVec 96
  seq : Nat
deriving DecidableEq, Repr

/-- The nonce of a record: the IV with the counter XORed into its low eight bytes. -/
def nonceAt (iv : BitVec 96) (seq : Nat) : BitVec 96 :=
  iv ^^^ BitVec.ofNat 96 seq

def RecordKey.nextNonce (key : RecordKey) : Option (BitVec 96 × RecordKey) :=
  if key.seq + 1 < 2 ^ 64 then
    some (nonceAt key.iv key.seq, { key with seq := key.seq + 1 })
  else none

/-- The record header, which is also its associated data: the length as four bytes, the
lowest first, and the kind. -/
def header (len : Nat) (kind : UInt8) : Bytes :=
  [UInt8.ofNat len, UInt8.ofNat (len / 2 ^ 8), UInt8.ofNat (len / 2 ^ 16),
    UInt8.ofNat (len / 2 ^ 24), kind]

def lengthOf (header : Bytes) : Nat :=
  (header.getD 0 0).toNat + (header.getD 1 0).toNat * 2 ^ 8 +
    (header.getD 2 0).toNat * 2 ^ 16 + (header.getD 3 0).toNat * 2 ^ 24

def kindOf (header : Bytes) : UInt8 :=
  header.getD 4 0

/-- A record as it was sealed: under which nonce and header, from what, into what. -/
structure Sealed where
  nonce : BitVec 96
  aad : Bytes
  plain : Bytes
  body : Bytes
deriving DecidableEq, Repr

def Sealed.kind (s : Sealed) : UInt8 :=
  kindOf s.aad

/-- Sealing: the sealed text and tag of a plaintext, under a nonce and a header. -/
abbrev Cipher := BitVec 96 → Bytes → Bytes → Option Bytes

/-- Opening under an ideal cipher: what was sealed under that nonce and header opens to
what it was sealed from, and nothing else opens. -/
def openIn (log : List Sealed) (nonce : BitVec 96) (aad body : Bytes) : Option Bytes :=
  (log.find? fun s => s.nonce = nonce ∧ s.aad = aad ∧ s.body = body).map Sealed.plain

theorem nonceAt_injective {iv : BitVec 96} {i j : Nat} (hi : i < 2 ^ 64) (hj : j < 2 ^ 64)
    (h : nonceAt iv i = nonceAt iv j) : i = j := by
  have hcounter : BitVec.ofNat 96 i = BitVec.ofNat 96 j := by
    have hcancel := congrArg (iv ^^^ ·) h
    simpa [nonceAt, ← BitVec.xor_assoc] using hcancel
  have hvalue := congrArg BitVec.toNat hcounter
  simp only [BitVec.toNat_ofNat] at hvalue
  omega

theorem RecordKey.nextNonce_eq_some {key next : RecordKey} {nonce : BitVec 96}
    (h : key.nextNonce = some (nonce, next)) :
    nonce = nonceAt key.iv key.seq ∧ next = { key with seq := key.seq + 1 } ∧
      key.seq + 1 < 2 ^ 64 := by
  obtain ⟨hlast, hpair⟩ := Option.ite_none_right_eq_some.mp h
  cases hpair
  exact ⟨rfl, rfl, hlast⟩

/-- The records sealed under a key carry its nonces in order. -/
def Numbered (iv : BitVec 96) (log : List Sealed) : Prop :=
  log.length < 2 ^ 64 ∧ ∀ i (h : i < log.length), log[i].nonce = nonceAt iv i

theorem Numbered.append {iv : BitVec 96} {log : List Sealed} {s : Sealed} (h : Numbered iv log)
    (hlast : log.length + 1 < 2 ^ 64) (hs : s.nonce = nonceAt iv log.length) :
    Numbered iv (log ++ [s]) := by
  refine ⟨by simpa using hlast, fun i hi => ?_⟩
  obtain hold | hnew := Nat.lt_or_ge i log.length
  · rw [List.getElem_append_left hold]
    exact h.2 i hold
  · have hi' : i = log.length := by
      rw [List.length_append, List.length_singleton] at hi
      omega
    subst hi'
    simpa using hs

/-- What opens under the nonce of the next number is the next record. -/
theorem Numbered.take_of_open {iv : BitVec 96} {log : List Sealed} {m : Nat}
    {aad body plain : Bytes} (h : Numbered iv log) (hm : m < 2 ^ 64)
    (hopen : openIn log (nonceAt iv m) aad body = some plain) :
    ∃ s, log.take (m + 1) = log.take m ++ [s] ∧ m < log.length ∧ s.aad = aad ∧ s.plain = plain := by
  obtain ⟨s, hfind, rfl⟩ := Option.map_eq_some_iff.mp hopen
  obtain ⟨j, hj, rfl⟩ := List.mem_iff_getElem.mp (List.mem_of_find?_eq_some hfind)
  have hfound := List.find?_some hfind
  rw [decide_eq_true_eq, h.2 j hj] at hfound
  have hsame : j = m := nonceAt_injective (hj.trans h.1) hm hfound.1
  subst hsame
  exact ⟨_, (List.take_concat_get' log j hj).symm, hj, hfound.2.1, rfl⟩

end Synch.Direct
