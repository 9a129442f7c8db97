import Mathlib.Data.List.Destutter
import Mathlib.Data.List.Sort
import Synch.Records.Decoder
import Synch.Records.Postcard
import Synch.Records.Space

/-!
# Delegation records

The delegation record as the record code has it, with its postcard encoding and
its well-formedness check, and the decoder of the verified core that reads the
same bytes into the columns of a row.
-/

namespace Synch.Records

open Synch.Support

/-- The schema version that appends the read-only list. -/
def delegationVersionReadOnly : UInt8 := 2

def maxDelegationSpaces : Nat := 32

/-- A grant of spaces to another origin. -/
structure Delegation where
  v : UInt8
  spaces : List Text
  notAfter : Int64
  note : Option Text
  readOnly : List Text
deriving DecidableEq

namespace Delegation

/-- Every space the subject may read. -/
def readable (d : Delegation) : List Text :=
  d.spaces ++ d.readOnly

def isWellFormed (d : Delegation) : Bool :=
  let count := d.spaces.length + d.readOnly.length
  d.v ≤ delegationVersionReadOnly &&
    (d.v ≥ delegationVersionReadOnly || d.readOnly.isEmpty) &&
    count > 0 &&
    count ≤ maxDelegationSpaces &&
    d.readable.all (fun s => (validateSpace s.value).isOk) &&
    (let sorted := (d.readable.map Text.value).insertionSort (· ≤ ·)
     let before := sorted.length
     (sorted.destutter (· ≠ ·)).length == before)

section Wire

variable (postcard : Postcard)

/-- Four fields, and the read-only list after them from the version that
introduced it. -/
def encode (d : Delegation) : List UInt8 :=
  if d.v ≥ delegationVersionReadOnly then
    postcard.putU8 d.v ++ postcard.putSeq postcard.putStr d.spaces ++
      postcard.putI64 d.notAfter ++ postcard.putOption postcard.putStr d.note ++
      postcard.putSeq postcard.putStr d.readOnly
  else
    postcard.putU8 d.v ++ postcard.putSeq postcard.putStr d.spaces ++
      postcard.putI64 d.notAfter ++ postcard.putOption postcard.putStr d.note

/-- The visitor of the deserializer. -/
def visitSeq : Reader Delegation := do
  let v ← postcard.takeU8
  let spaces ← postcard.takeSeq postcard.takeStr
  let notAfter ← postcard.takeI64
  let note ← postcard.takeOption postcard.takeStr
  let readOnly ←
    if v ≥ delegationVersionReadOnly then postcard.takeSeq postcard.takeStr else pure []
  return ⟨v, spaces, notAfter, note, readOnly⟩

/-- Bytes after the record are ignored. -/
def decode (bytes : List UInt8) : Option Delegation :=
  (visitSeq postcard bytes).map Prod.fst

end Wire

end Delegation

/-! ## The verified core's reading -/

instance byteArrayDecidableEq : DecidableEq ByteArray := fun a b =>
  decidable_of_iff (a.data = b.data) (by cases a; cases b; simp)

/-- One column of a row. -/
inductive Cell where
  | null
  | integer (value : Int64)
  | text (value : String)
  | blob (value : ByteArray)
deriving DecidableEq

abbrev Fields := List (String × Cell)

def nullable {α : Type} (encode : α → Cell) (value : Option α) : Cell :=
  value.map encode |>.getD .null

def delegationVersion : Decoder Nat := do
  let v ← byte
  if v > 2 then
    throw s!"delegation is schema version {v}, past the 2 this build reads"
  return v.toNat

def spaceList (count : Nat) : Decoder (List String) := do
  if count > 32 then throw "invalid delegation space count"
  strings count []

def spacesCell (spaces : List String) : Cell :=
  nullable .text (if spaces.isEmpty then none else some (String.intercalate "\n" spaces))

/-- The columns of a delegation's row. -/
def delegationFields
    (spaces readOnly : List String) (expires : Int64) (note : Option String) : Fields :=
  [("spaces", spacesCell spaces), ("read_only", spacesCell readOnly),
    ("expires_at", .integer expires), ("note", nullable .text note)]

def delegation : Decoder Fields := do
  let v ← delegationVersion
  let spaces ← spaceList (← uint)
  let expires ← sint
  let note ← optional string
  let readOnly ← if v ≥ 2 then do spaceList (← uint) else pure []
  let all := spaces ++ readOnly
  if all.isEmpty || all.length > 32 then throw "invalid delegation space count"
  if !all.all validSpace || all.eraseDups.length != all.length then
    throw "invalid delegation spaces"
  return delegationFields spaces readOnly expires note

/-- The row of a delegation: what the grant says, without its version stamp. -/
def Delegation.fields (d : Delegation) : Fields :=
  delegationFields (d.spaces.map Text.value) (d.readOnly.map Text.value) d.notAfter
    (d.note.map Text.value)

end Synch.Records
