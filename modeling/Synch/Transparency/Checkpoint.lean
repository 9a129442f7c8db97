import Synch.Transparency.Chain
import Synch.Transparency.Inclusion

/-!
# Checkpoints

A checkpoint is a signed note: lines of text, a blank line, and the signatures
over the text.  The log's own signature counts only under a pinned key.
-/

namespace Synch.Transparency

open Synch.Support

/-! ## Libraries -/

/-- A JSON value as the library reads it; a number is natural or it is not. -/
inductive Json where
  | null
  | bool (value : Bool)
  | natural (value : Nat)
  | number (text : String)
  | string (value : String)
  | array (items : List Json)
  | object (members : List (String × Json))

namespace Json

def get (value : Json) (key : String) : Json :=
  match value with
  | .object members => (members.lookup key).getD .null
  | _ => .null

def asStr? : Json → Option String
  | .string value => some value
  | _ => none

def asU64? : Json → Option Nat
  | .natural value => if value < 2 ^ 64 then some value else none
  | _ => none

def asArray? : Json → Option (List Json)
  | .array items => some items
  | _ => none

def isNull : Json → Bool
  | .null => true
  | _ => false

end Json

/-- The signature algorithms that the client asks the library for. -/
inductive SignatureAlgorithm where
  | ecdsaP256Sha256Asn1
  | ecdsaP256Sha256Fixed
  | ed25519
deriving DecidableEq, Repr

/-- What the client and the monitor take from libraries. -/
structure Library extends Dnssec where
  /-- Reading JSON. -/
  fromSlice : List UInt8 → Except String Json
  /-- Decoding standard base64 without padding. -/
  base64 : String → Option (List UInt8)
  /-- Whether a signature over a message verifies under a key. -/
  verifies : SignatureAlgorithm → List UInt8 → List UInt8 → List UInt8 → Bool

/-- The code points that count as white space. -/
def isWhiteSpace (c : Char) : Bool :=
  let n := c.toNat
  (9 ≤ n && n ≤ 13) || n == 32 || n == 0x85 || n == 0xa0 || n == 0x1680 ||
    (0x2000 ≤ n && n ≤ 0x200a) || n == 0x2028 || n == 0x2029 || n == 0x202f || n == 0x205f ||
    n == 0x3000

/-- Standard base64, white space ignored and padding optional. -/
def base64Decode (lib : Library) (text : String) : Option (List UInt8) :=
  lib.base64 (String.ofList (text.toList.filter fun c => !isWhiteSpace c && c ≠ '='))

/-! ## Lines -/

/-- The text before the last blank line, and the text after it. -/
def splitLastBlank : List Char → Option (List Char × List Char)
  | [] => none
  | c :: rest =>
    match splitLastBlank rest with
    | some (before, after) => some (c :: before, after)
    | none => if c = '\n' ∧ rest.head? = some '\n' then some ([], rest.tail) else none

/-- A line without the carriage return before its end. -/
def stripReturn (line : List Char) : List Char :=
  if line.getLast? = some '\r' then line.dropLast else line

/-- The lines of a text; an unfinished last line counts if it is not empty. -/
def textLines (text : List Char) : List (List Char) :=
  let pieces := text.splitOn '\n'
  let unfinished := pieces.getLast?.getD []
  pieces.dropLast.map stripReturn ++ if unfinished = [] then [] else [unfinished]

/-- A 64-bit number in decimal, with an optional plus sign. -/
def parseU64 (text : List Char) : Option Nat :=
  let digits := if text.head? = some '+' then text.tail else text
  let value := digits.foldl (fun n c => n * 10 + (c.toNat - '0'.toNat)) 0
  if digits ≠ [] ∧ digits.all Char.isDigit ∧ value < 2 ^ 64 then some value else none

/-- The parts of a text around its first space. -/
def splitOnceSpace (text : List Char) : Option (List Char × List Char) :=
  if ' ' ∈ text then
    some (text.takeWhile (· ≠ ' '), (text.dropWhile (· ≠ ' ')).tail)
  else
    none

/-! ## Notes -/

/-- One signature line: the key name it claims, its key hint, and the signature. -/
structure NoteSignature where
  name : String
  hint : List UInt8
  signature : List UInt8
deriving DecidableEq, Repr

/-- The log's signed statement of a tree. -/
structure Checkpoint where
  origin : String
  treeSize : Nat
  rootHash : Hash
  signed : List UInt8
  signatures : List NoteSignature
deriving DecidableEq, Repr

section Checkpoint

variable (lib : Library)

def hashOfBytes? (bytes : List UInt8) : Option Hash :=
  if h : bytes.length = 32 then some ⟨bytes, h⟩ else none

def checkpointError (why : String) : ProofError :=
  .malformed s!"checkpoint: {why}"

/-- One line after the blank one: a dash, the key name, the hint with the signature. -/
def parseNoteSignature (line : List Char) : Except ProofError NoteSignature := do
  let rest ← orRefuse (line.dropPrefix? "— ".toList)
    (checkpointError "a signature line does not start with an em dash")
  let (name, encoded) ← orRefuse (splitOnceSpace rest)
    (checkpointError "a signature line has no signature")
  let blob ← orRefuse (base64Decode lib (String.ofList encoded))
    (checkpointError "a signature is not base64")
  refuseIf (blob.length ≤ 4) (checkpointError "a signature is shorter than its key hint")
  return { name := String.ofList name, hint := blob.take 4, signature := blob.drop 4 }

def Checkpoint.parse (bytes : List UInt8) : Except ProofError Checkpoint := do
  let text ← orRefuse (textOf bytes) (checkpointError "not UTF-8")
  let (before, after) ← orRefuse (splitLastBlank text.toList)
    (checkpointError "no blank line between the note and its signatures")
  let signed := before ++ ['\n']
  let lines := textLines signed
  let origin ← orRefuse lines[0]? (checkpointError "no origin line")
  let sizeLine ← orRefuse lines[1]? (checkpointError "no tree size line")
  let treeSize ← orRefuse (parseU64 sizeLine) (checkpointError "the tree size is not a number")
  let rootLine ← orRefuse lines[2]? (checkpointError "no root hash line")
  let root ← orRefuse (base64Decode lib (String.ofList rootLine))
    (checkpointError "the root hash is not base64")
  let rootHash ← orRefuse (hashOfBytes? root) (checkpointError "the root hash is not 32 bytes")
  let signatures ← ((textLines after).filter (· ≠ [])).mapM (parseNoteSignature lib)
  refuseIf (signatures = []) (checkpointError "no signature lines")
  return {
    origin := String.ofList origin
    treeSize
    rootHash
    signed := (String.ofList signed).toByteArray.data.toList
    signatures }

/-! ## Log keys -/

inductive Scheme where
  | ecdsaP256Sha256
  | ed25519
deriving DecidableEq, Repr

/-- The scheme and the key material, a P-256 point being tagged as uncompressed. -/
structure RawKey where
  scheme : Scheme
  point : List UInt8
deriving DecidableEq, Repr

/-- Whether a signature verifies; either encoding of an ECDSA signature will do. -/
def RawKey.verifies (key : RawKey) (message signature : List UInt8) : Bool :=
  let algorithms : List SignatureAlgorithm :=
    match key.scheme with
    | .ecdsaP256Sha256 => [.ecdsaP256Sha256Asn1, .ecdsaP256Sha256Fixed]
    | .ed25519 => [.ed25519]
  algorithms.any fun algorithm => lib.verifies algorithm key.point message signature

/-- One pinned log key, with the origin it is pinned for if the pin named one. -/
structure LogKey where
  id : Hash
  key : RawKey
  origin : Option String
deriving DecidableEq, Repr

/-- The key hint that a note by this key carries, where there is one derivation. -/
def LogKey.noteHint (key : LogKey) (origin : String) : Option (List UInt8) :=
  match key.key.scheme with
  | .ecdsaP256Sha256 => none
  | .ed25519 =>
    let input := origin.toByteArray.data.toList ++ 0x0a :: 0x01 :: key.key.point
    some ((lib.sha256 input).bytes.take 4)

/-- The log's own line of a checkpoint verifies under a pinned key of that log. -/
def Checkpoint.verifySignature (checkpoint : Checkpoint) (key : LogKey) :
    Except ProofError Unit := do
  let origin := checkpoint.origin
  refuseIf (key.origin.any (· ≠ origin))
    (.checkpoint (s!"the checkpoint says it is from {origin}, but the pinned key that " ++
      "signs it is the key for another log"))
  let signed := checkpoint.signatures.any fun line =>
    line.name == origin && (key.noteHint lib origin).all (· == line.hint) &&
      key.key.verifies lib checkpoint.signed line.signature
  refuseIf (signed = false)
    (.checkpoint (s!"the checkpoint from {origin} carries no signature by {origin} itself that " ++
      "verifies under the pinned log key"))

/-- The logs that this client accepts a record from. -/
structure LogKeys where
  keys : List LogKey

def LogKeys.find (logs : LogKeys) (logId : Hash) : Option LogKey :=
  logs.keys.find? (·.id = logId)

end Checkpoint

end Synch.Transparency
