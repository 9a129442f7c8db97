import Std.Data.TreeMap
import Synch.Support.Base64
import Synch.Support.BigEndian
import Synch.Support.Chunks
import Synch.Support.Text
import Synch.Transparency.Rekor

/-!
# Zone-key records as text

A record is one binary document, and the zone serves it in several text records that each say which
part of which document they are.  The reader gets a bag of text records and puts together what it
can.  SHA-256 is a parameter, and so is what the base64 decoder says about a text it refuses.
-/

namespace Synch.Transparency

open Std Synch.Support

def proofVersion : UInt8 := 4

def proofTxtPrelude : String := "sync1p"

def proofChunkChars : Nat := 2000

/-! ## The binary form -/

def blob16 (blob : List UInt8) : List UInt8 :=
  beBytes 2 blob.length ++ blob

def RekorProof.encodeUnchecked (proof : RekorProof) : List UInt8 :=
  [proofVersion] ++ proof.logId.bytes ++ beBytes 8 proof.logIndex ++ blob16 proof.statement ++
    blob16 proof.canonicalizedBody ++ blob16 proof.checkpoint ++
    [UInt8.ofNat proof.inclusionPath.length] ++ proof.inclusionPath.flatMap Hash.bytes

/-- The record, unless one of its parts is too long to say. -/
def RekorProof.encode (proof : RekorProof) : Option (List UInt8) :=
  if 65535 < proof.statement.length ∨ 65535 < proof.canonicalizedBody.length ∨
      65535 < proof.checkpoint.length ∨ 255 < proof.inclusionPath.length then none
  else some proof.encodeUnchecked

/-- A reader over the bytes that are left. -/
abbrev ByteReader := StateT (List UInt8) (Except ProofError)

namespace ByteReader

-- the end of a run is never beyond a machine word: no length here is more than 65535
def take (length : Nat) (what : String) : ByteReader (List UInt8) := fun bytes =>
  let remain := bytes.length
  if remain < length then
    .error (.malformed s!"{what}: wanted {length} bytes, {remain} remain")
  else .ok (bytes.take length, bytes.drop length)

variable (what : String)

def u8 : ByteReader UInt8 := do
  let bytes ← take 1 what
  return bytes.headD 0

def u16 : ByteReader Nat := do
  let bytes ← take 2 what
  return beValue bytes

def u64 : ByteReader Nat := do
  let bytes ← take 8 what
  return beValue bytes

def array32 : ByteReader Hash := do
  let bytes ← take 32 what
  return if h : bytes.length = 32 then ⟨bytes, h⟩ else .ofNat 0

def blob : ByteReader (List UInt8) := do
  let length ← u16 what
  take length what

/-- The hashes of an audit path. -/
def hops : Nat → ByteReader (List Hash)
  | 0 => return []
  | count + 1 => do
    let hash ← array32 "inclusion path hash"
    let rest ← hops count
    return hash :: rest

def finish : ByteReader Unit := fun bytes =>
  let extra := bytes.length
  if extra = 0 then .ok ((), bytes)
  else .error (.malformed s!"{extra} bytes after the end of the record")

end ByteReader

def readProof : ByteReader RekorProof := do
  let version ← ByteReader.u8 "version"
  if version ≠ proofVersion then
    throw (.malformed s!"version {version} is not {proofVersion}")
  else
    let logId ← ByteReader.array32 "log id"
    let logIndex ← ByteReader.u64 "log index"
    let statement ← ByteReader.blob "statement"
    let canonicalizedBody ← ByteReader.blob "canonicalized body"
    let checkpoint ← ByteReader.blob "checkpoint"
    let count ← ByteReader.u8 "inclusion path length"
    let inclusionPath ← ByteReader.hops count.toNat
    ByteReader.finish
    return { logId, logIndex, statement, canonicalizedBody, checkpoint, inclusionPath }

def RekorProof.decode (bytes : List UInt8) : Except ProofError RekorProof :=
  (readProof bytes).map Prod.fst

/-! ## The text form -/

/-- The URL-safe alphabet, by the letter of the standard one. -/
def toUrlLetter (c : Char) : Char :=
  if c = '+' then '-' else if c = '/' then '_' else c

def ofUrlLetter (c : Char) : Char :=
  if c = '-' then '+' else if c = '_' then '/' else c

def base64urlEncode (bytes : List UInt8) : List Char :=
  (base64Digits bytes).map toUrlLetter

def hexLower (bytes : List UInt8) : String :=
  String.ofList (bytes.flatMap hexDigits)

/-- One text record, read. -/
structure Part where
  group : String
  index : Nat
  total : Nat
  chunk : List Char
deriving DecidableEq, Repr

def Part.text (part : Part) : String :=
  proofTxtPrelude ++ " " ++ part.group ++ " " ++ toString part.index ++ "/" ++
    toString part.total ++ " " ++ String.ofList part.chunk

section Digest

variable (sha256 : List UInt8 → Hash)

/-- The first four bytes of a document's digest. -/
def groupOf (encoded : List UInt8) : String :=
  hexLower ((sha256 encoded).bytes.take 4)

/-- The parts a document is served in. -/
def partsOf (encoded : List UInt8) : List Part :=
  let chunks := chunksOf proofChunkChars (base64urlEncode encoded)
  chunks.mapIdx fun i chunk =>
    { group := groupOf sha256 encoded, index := i + 1, total := chunks.length, chunk }

def RekorProof.toTxt (proof : RekorProof) : Option (List String) := do
  let encoded ← proof.encode
  let parts := partsOf sha256 encoded
  if 255 < parts.length then none else some (parts.map Part.text)

/-! ## Reading the text form -/

def recordError (why : String) : ProofError :=
  .malformed s!"proof record: {why}"

def isHexDigit (c : Char) : Bool :=
  c.isDigit || ('a' ≤ c && c ≤ 'f') || ('A' ≤ c && c ≤ 'F')

def parseChunk (record : String) : Except ProofError Part := do
  let fields := words isWhiteSpace record.toList
  refuseIf (fields.head? ≠ some proofTxtPrelude.toList) (recordError "not a sync1p record")
  let group ← orRefuse fields[1]? (recordError "no group")
  refuseIf (¬(group.length = 8 ∧ group.all isHexDigit = true))
    (recordError "the group is not eight hex digits")
  let counter ← orRefuse fields[2]? (recordError "no index")
  let (index, total) ← orRefuse (splitOnce '/' counter)
    (recordError "the index is not <index>/<total>")
  let index ← orRefuse (parseU64 index) (recordError "the index is not a number")
  let total ← orRefuse (parseU64 total) (recordError "the total is not a number")
  refuseIf (index = 0 ∨ total = 0 ∨ total < index ∨ 255 < total)
    (recordError "the index is outside 1..=total")
  let chunk ← orRefuse fields[3]? (recordError "no payload")
  refuseIf (fields[4]? ≠ none) (recordError "trailing fields")
  return { group := String.ofList (group.map Char.toLower), index, total, chunk }

variable (explain : List Char → String)

/-- White space and padding are left out before decoding. -/
def base64urlDecode (text : List Char) : Except ProofError (List UInt8) :=
  let trimmed := text.filter fun c => !isWhiteSpace c && c ≠ '='
  let why := explain trimmed
  let bytes :=
    if trimmed.any fun c => c = '+' ∨ c = '/' then none
    else base64Bytes (trimmed.map ofUrlLetter)
  orRefuse bytes (.malformed s!"not base64url: {why}")

variable (group : String)

/-- A reassembled payload, held to the group it claimed. -/
def decodeGroup (payload : List Char) : Except ProofError RekorProof := do
  let bytes ← base64urlDecode explain payload
  let digest := groupOf sha256 bytes
  refuseIf (digest ≠ group) (.malformed
    (s!"proof {group} reassembled to something whose digest is {digest}: " ++
      "its parts are not all from one record"))
  RekorProof.decode bytes

/-- The parts of one group by the total they claim and by index, and the first index that came
twice for a total. -/
structure Readings where
  byTotal : TreeMap Nat (TreeMap Nat (List Char))
  duplicated : TreeMap Nat Nat

def Readings.add (readings : Readings) (part : Part) : Readings :=
  let chunks := readings.byTotal.getD part.total ∅
  { byTotal := readings.byTotal.insert part.total (chunks.insert part.index part.chunk)
    duplicated :=
      if chunks.contains part.index ∧ ¬readings.duplicated.contains part.total then
        readings.duplicated.insert part.total part.index
      else readings.duplicated }

/-- The payload so far, with one more part. -/
def gatherPart (duplicated : Option Nat) (total : Nat)
    (chunks : TreeMap Nat (List Char)) (payload : List Char) (index : Nat) :
    Except ProofError (List Char) := do
  refuseIf (duplicated = some index) (.malformed
    (s!"proof {group} is served in {total} part(s) and part {index} arrived more than once, " ++
      "so the zone does not agree with itself about what it published"))
  let chunk ← orRefuse chunks[index]? (.malformed
    s!"proof {group} is served in {total} part(s) and part {index} did not arrive")
  return payload ++ chunk

def readTotal (duplicated : TreeMap Nat Nat)
    (reading : Nat × TreeMap Nat (List Char)) : Except ProofError RekorProof := do
  let (total, chunks) := reading
  let payload ← (List.range' 1 total).foldlM (gatherPart group duplicated[total]? total chunks) []
  decodeGroup sha256 explain group payload

/-- The first reading that succeeds, or why the last did not. -/
def firstOk (last : ProofError) :
    List (Except ProofError RekorProof) → Except ProofError RekorProof
  | [] => .error last
  | .ok proof :: _ => .ok proof
  | .error reason :: rest => firstOk reason rest

/-- Reassemble one group; the smallest total is tried first. -/
def assembleGroup (parts : List Part) : Except ProofError RekorProof :=
  let readings := parts.foldl Readings.add ⟨∅, ∅⟩
  firstOk (.malformed s!"proof {group} is served in no parts at all")
    (readings.byTotal.toList.map (readTotal sha256 explain group readings.duplicated))

/-- The records of a name: the parts of each group in the order they came, and what could not be
read. -/
structure Sorted where
  groups : TreeMap String (List Part)
  junk : List ProofError

def Sorted.add (sorted : Sorted) (record : String) : Sorted :=
  match parseChunk record with
  | .ok part =>
    let parts := sorted.groups.getD part.group []
    { sorted with groups := sorted.groups.insert part.group (parts ++ [part]) }
  | .error reason => { sorted with junk := sorted.junk ++ [reason] }

def sortRecords (records : List String) : Sorted :=
  records.foldl Sorted.add ⟨∅, []⟩

/-- Reassemble every complete record served at one name. -/
def proofsFromTxt (records : List String) : List (Except ProofError RekorProof) :=
  let sorted := sortRecords records
  let out := sorted.groups.toList.map fun (group, parts) =>
    assembleGroup sha256 explain group parts
  if out.isEmpty then sorted.junk.map .error else out

end Digest

end Synch.Transparency
