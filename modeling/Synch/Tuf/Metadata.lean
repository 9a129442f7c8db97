import Std.Data.TreeMap.Lemmas
import Synch.Support.Base64
import Synch.Transparency.Rekor
import Synch.Tuf.Time
import Synch.Tuf.Value

/-!
# The metadata files of an update

A metadata file is a signed object and a list of signatures, each under the id of a key.  The root
file names the keys, and for each role the ids that may sign for it and how many of them must.
-/

namespace Synch.Tuf

open Std Synch.Support
open Synch.Transparency (RawKey Scheme SignatureAlgorithm p256SpkiPrelude isWhiteSpace textLines)

inductive TufError where
  | malformed (why : String)
  | chain (why : String)
  | threshold (why : String)
  | signature (why : String)
  | expiry (why : String)
  | rollback (why : String)
  | targetHash (why : String)
deriving DecidableEq, Repr

/-- What the client takes from libraries. -/
structure Library where
  /-- Reading JSON. -/
  fromSlice : List UInt8 → Except String Value
  /-- Whether a signature over a message verifies under the key material. -/
  verifies : SignatureAlgorithm → List UInt8 → List UInt8 → List UInt8 → Bool
  sha256 : List UInt8 → Hash

def hexValue (c : Char) : Option Nat :=
  if '0' ≤ c ∧ c ≤ '9' then some (c.toNat - '0'.toNat)
  else if 'a' ≤ c ∧ c ≤ 'f' then some (c.toNat - 'a'.toNat + 10)
  else if 'A' ≤ c ∧ c ≤ 'F' then some (c.toNat - 'A'.toNat + 10)
  else none

def hexDecode : List Char → Option (List UInt8)
  | [] => some []
  | [_] => none
  | high :: low :: rest => do
    let high ← hexValue high
    let low ← hexValue low
    let bytes ← hexDecode rest
    return UInt8.ofNat (16 * high + low) :: bytes

def trim (text : List Char) : List Char :=
  ((text.dropWhile isWhiteSpace).reverse.dropWhile isWhiteSpace).reverse

/-- Standard base64, white space ignored and padding optional. -/
def base64Decode (text : List Char) : Option (List UInt8) :=
  base64Bytes (text.filter fun c => !isWhiteSpace c && c ≠ '=')

/-! ## Keys -/

def ed25519SpkiPrelude : List UInt8 :=
  [0x30, 0x2a, 0x30, 0x05, 0x06, 0x03, 0x2b, 0x65, 0x70, 0x03, 0x21, 0x00]

/-- A coordinate pair tagged as an uncompressed point. -/
def uncompressed (point : List UInt8) : List UInt8 :=
  0x04 :: point

/-- A key in one of the two shapes that are recognised. -/
def fromSpki (der : List UInt8) : Option RawKey :=
  let p256 := der.drop p256SpkiPrelude.length
  let ed25519 := der.drop ed25519SpkiPrelude.length
  if p256SpkiPrelude <+: der ∧ p256.length = 64 then
    some { scheme := .ecdsaP256Sha256, point := uncompressed p256 }
  else if ed25519SpkiPrelude <+: der ∧ ed25519.length = 32 then
    some { scheme := .ed25519, point := ed25519 }
  else none

def fromSpkiAs (der : List UInt8) (scheme : Scheme) : Option RawKey :=
  (fromSpki der).filter fun key => key.scheme = scheme

/-- The raw key material of old roots. -/
def fromRaw (bytes : List UInt8) (scheme : Scheme) : Option RawKey :=
  match scheme with
  | .ecdsaP256Sha256 =>
    if bytes.head? = some 0x04 ∧ bytes.length = 65 then some { scheme, point := bytes }
    else if bytes.length = 64 then some { scheme, point := uncompressed bytes }
    else none
  | .ed25519 => if bytes.length = 32 then some { scheme, point := bytes } else none

def pemBody (pem : String) : Except TufError (List UInt8) :=
  let body := ((textLines pem.toList).filter fun line => ¬"-----".toList <+: line).flatten
  orRefuse (base64Decode (trim body)) (.signature "a PEM key is not base64")

def keyError (why : String) : TufError :=
  .signature s!"key: {why}"

def parseScheme (key : Value) : Except TufError Scheme :=
  match (key.get "scheme").asStr with
  | some "ecdsa-sha2-nistp256" => .ok .ecdsaP256Sha256
  | some "ed25519" => .ok .ed25519
  | some other => .error (keyError s!"unsupported scheme {other}")
  | none => .error (keyError "no scheme")

def parseKey (key : Value) : Except TufError RawKey := do
  let scheme ← parseScheme key
  let pub ← orRefuse ((key.get "keyval").get "public").asStr (keyError "no keyval.public")
  if "-----BEGIN".toList <:+: pub.toList then
    let body ← pemBody pub
    orRefuse (fromSpkiAs body scheme)
      (.signature "a key is not the SubjectPublicKeyInfo its scheme names")
  else
    let raw ← orRefuse (hexDecode (trim pub.toList)) (keyError "keyval.public is not hex")
    orRefuse (fromRaw raw scheme) (.signature "a key is not the raw material its scheme names")

/-! ## Metadata -/

/-- One parsed file: the signed object, the bytes its signatures cover, and these. -/
structure Meta where
  role : String
  version : Nat
  expires : Int
  signed : Value
  canonical : List UInt8
  signatures : List (String × List UInt8)

/-- A root file: its tables of roles and of keys. -/
structure Root where
  version : Nat
  file : Meta
  bytes : List UInt8
  roles : TreeMap String (List String × Nat)
  keys : TreeMap String RawKey

section Metadata

def malformed (role : String) (why : String) : TufError :=
  .malformed s!"{role}.json: {why}"

def parseSignature (role : String) (entry : Value) : Except TufError (String × List UInt8) := do
  let keyid ← orRefuse (entry.get "keyid").asStr (malformed role "a signature has no keyid")
  let text ← orRefuse (entry.get "sig").asStr (malformed role "a signature has no sig")
  let sig ← orRefuse (hexDecode text.toList) (malformed role "a signature is not hex")
  return (keyid, sig)

/-- A metadata file, once its JSON is read. -/
def Meta.ofValue (value : Value) (role : String) : Except TufError Meta := do
  let signed ← orRefuse (value.get? "signed") (malformed role "no signed object")
  let declared ← orRefuse (signed.get "_type").asStr (malformed role "signed._type is not a string")
  refuseIf (declared ≠ role) (.chain s!"a file served as {role}.json declares itself {declared}")
  let spec ← orRefuse (signed.get "spec_version").asStr (malformed role "no spec_version")
  refuseIf (¬"1.".toList <+: spec.toList) (malformed role s!"spec version {spec} is not 1.x")
  let version ← orRefuse (signed.get "version").asU64
    (malformed role "version is not a whole number")
  let text ← orRefuse (signed.get "expires").asStr (malformed role "expires is not a string")
  let expires ← orRefuse (parseRfc3339 text) (malformed role "expires is not an RFC 3339 timestamp")
  let entries ← orRefuse (value.get "signatures").asArray
    (malformed role "signatures is not an array")
  let signatures ← entries.mapM (parseSignature role)
  let canonical ← reword (malformed role) (canonicalJson signed)
  return { role, version, expires, signed, canonical, signatures }

variable (lib : Library)

def Meta.parse (bytes : List UInt8) (role : String) : Except TufError Meta := do
  let value ← reword (malformed role) (lib.fromSlice bytes)
  Meta.ofValue value role

def parseRole (name : String) (role : Value) : Except TufError (List String × Nat) := do
  let threshold ← orRefuse (role.get "threshold").asU64
    (malformed "root" s!"role {name} has no threshold")
  refuseIf (threshold = 0) (malformed "root" s!"role {name} has threshold 0")
  let keyids ← orRefuse (role.get "keyids").asArray (malformed "root" s!"role {name} has no keyids")
  return (keyids.filterMap Value.asStr, threshold)

/-- The members of an object are visited in the order of their keys. -/
def parseRoles (members : List (String × Value)) :
    Except TufError (TreeMap String (List String × Nat)) :=
  (sortMembers members).foldlM (fun roles (name, role) => do
    return roles.insert name (← parseRole name role)) ∅

/-- A key that cannot be used is left out. -/
def parseKeys (members : List (String × Value)) : TreeMap String RawKey :=
  (sortMembers members).foldl (fun keys (id, key) =>
    match parseKey key with
    | .ok parsed => keys.insert id parsed
    | .error _ => keys) ∅

def Root.parse (bytes : List UInt8) : Except TufError Root := do
  let file ← Meta.parse lib bytes "root"
  let roleMembers ← orRefuse (file.signed.get "roles").asObject
    (malformed "root" "roles is not an object")
  let roles ← parseRoles roleMembers
  let keyMembers ← orRefuse (file.signed.get "keys").asObject
    (malformed "root" "keys is not an object")
  return { version := file.version, file, bytes, roles, keys := parseKeys keyMembers }

/-! ## Signatures -/

/-- Whether a signature verifies; either encoding of an ECDSA signature will do. -/
def verifies (key : RawKey) (message signature : List UInt8) : Bool :=
  let algorithms : List SignatureAlgorithm :=
    match key.scheme with
    | .ecdsaP256Sha256 => [.ecdsaP256Sha256Asn1, .ecdsaP256Sha256Fixed]
    | .ed25519 => [.ed25519]
  algorithms.any fun algorithm => lib.verifies algorithm key.point message signature

/-- The ids a verification was tried for, and those that verified. -/
structure Tally where
  tried : List String
  signed : List String

/-- One signature of a file, against the ids that may sign. -/
def countSignature
    (keys : TreeMap String RawKey) (authorized : List String) (message : List UInt8)
    (tally : Tally) (entry : String × List UInt8) : Tally :=
  if entry.1 ∉ authorized ∨ entry.1 ∈ tally.tried then tally
  else
    let tally := { tally with tried := entry.1 :: tally.tried }
    match keys[entry.1]? with
    | none => tally
    | some key =>
      if verifies lib key message entry.2 then
        { tally with signed := tally.signed.insert entry.1 }
      else tally

def Root.signedIds (root : Root) (authorized : List String) (file : Meta) : List String :=
  (file.signatures.foldl (countSignature lib root.keys authorized file.canonical) ⟨[], []⟩).signed

/-- Whether a file carries the signatures of a role. -/
def Root.checkRole (root : Root) (role : String) (file : Meta) : Except TufError Unit := do
  let (keyids, threshold) ← orRefuse root.roles[role]?
    (.chain s!"root {root.version} defines no {role} role")
  let signed := root.signedIds lib keyids file
  let count := signed.length
  refuseIf (count < threshold) (.threshold
    (s!"{file.role}.json version {file.version} carries {count} of the {threshold} " ++
      s!"{role} signatures root {root.version} requires"))

end Metadata

end Synch.Tuf
