import Mathlib.Data.List.Sort
import Synch.Transparency.Checkpoint

/-!
# Zone-key records

A record proves that the key which signed an answer is in the log: its entry is
in the tree of a checkpoint, the certificate in the entry carries a chain that
proves a key set, and the statement describes exactly that set.
-/

namespace Synch.Transparency

open Synch.Support

/-! ## The entry body -/

/-- The fields of an entry body that a record turns on. -/
structure HashedRekordBody where
  digest : List UInt8
  signature : List UInt8
  certificate : Certificate
  certificateDer : List UInt8
deriving DecidableEq, Repr

/-- A refusal of a document that is not of its shape. -/
def shapeError (document why : String) : ProofError :=
  .malformed s!"{document}: {why}"

def textMember (document : String) (value : Json) (what : String) : Except ProofError String :=
  orRefuse value.asStr? (shapeError document s!"{what} is not a string")

section Rekor

variable (lib : Library)

def bytesMember (document : String) (value : Json) (what : String) :
    Except ProofError (List UInt8) := do
  let text ← textMember document value what
  orRefuse (base64Decode lib text) (shapeError document s!"{what} is not base64")

def HashedRekordBody.parse (bytes : List UInt8) : Except ProofError HashedRekordBody := do
  let document := "entry body"
  let value ← reword (shapeError document) (lib.fromSlice bytes)
  let kind ← textMember document (value.get "kind") "kind"
  let apiVersion ← textMember document (value.get "apiVersion") "apiVersion"
  refuseIf (kind ≠ "hashedrekord" ∨ apiVersion ≠ "0.0.2")
    (.binding s!"the entry is {kind} {apiVersion}, not hashedrekord 0.0.2")
  let spec := (value.get "spec").get "hashedRekordV002"
  refuseIf (spec.isNull = true) (shapeError document "not a hashedrekord v0.0.2 entry")
  let data := spec.get "data"
  let algorithm ← textMember document (data.get "algorithm") "data.algorithm"
  refuseIf (algorithm ≠ "SHA2_256")
    (.binding s!"entry digest algorithm {algorithm} is not SHA2_256")
  let signature := spec.get "signature"
  let verifier := signature.get "verifier"
  let keyDetails ← textMember document (verifier.get "keyDetails") "verifier.keyDetails"
  refuseIf (keyDetails ≠ "PKIX_ECDSA_P256_SHA_256")
    (.binding s!"entry key details {keyDetails} are not PKIX_ECDSA_P256_SHA_256")
  let rawBytes := (verifier.get "x509Certificate").get "rawBytes"
  refuseIf (rawBytes.asStr? = none)
    (.binding ("the entry's verifier is not an x509Certificate, so its leaf names " ++
      "no zone and no monitor could ever have seen it"))
  let certificateDer ← bytesMember lib document rawBytes "verifier.x509Certificate.rawBytes"
  let certificate ← reword (fun why => shapeError document why.text)
    (Certificate.parse certificateDer)
  let digest ← bytesMember lib document (data.get "digest") "data.digest"
  let content ← bytesMember lib document (signature.get "content") "signature.content"
  return { digest, signature := content, certificate, certificateDer }

/-! ## The statement -/

/-- One key of a statement's claimed set. -/
structure StatementKey where
  keyTag : UInt16
  algorithm : UInt8
  flags : UInt16
  sha256 : String
deriving DecidableEq, Repr

/-- The statement that an entry is about. -/
structure ZoneKeyStatement where
  apex : String
  keys : List StatementKey
  action : String
deriving DecidableEq, Repr

/-- The order of the keys in a statement: by tag, then by digest. -/
def StatementKey.le (a b : StatementKey) : Prop :=
  a.keyTag < b.keyTag ∨ a.keyTag = b.keyTag ∧ a.sha256 ≤ b.sha256

instance : DecidableRel StatementKey.le :=
  fun _ _ => inferInstanceAs (Decidable (_ ∨ _))

/-- The entry of a key in a statement, derived from its wire form. -/
def statementKey (rdata : List UInt8) : StatementKey where
  keyTag := keyTag rdata
  algorithm := if 4 ≤ rdata.length then rdata.getD 3 0 else 0
  flags :=
    if 4 ≤ rdata.length then
      UInt16.ofNat ((rdata.getD 0 0).toNat * 256 + (rdata.getD 1 0).toNat)
    else 0
  sha256 := (lib.sha256 rdata).toHex

def ZoneKeyStatement.forKeys (apex : String) (rdatas : List (List UInt8)) (action : String) :
    ZoneKeyStatement where
  apex := apex
  keys := (rdatas.map (statementKey lib)).insertionSort StatementKey.le
  action := action

/-- Equality of texts up to the case of ASCII letters. -/
def eqIgnoreAsciiCase (a b : String) : Bool :=
  a.toList.map Char.toLower == b.toList.map Char.toLower

/-- A member that must be a whole number below a bound. -/
def numberMember (value : Json) (what : String) (bound : Nat) : Except ProofError Nat := do
  let number ← orRefuse value.asU64? (shapeError "statement" s!"{what} is not a whole number")
  refuseIf (number ≥ bound) (shapeError "statement" s!"{what} is out of range")
  return number

/-- One claimed key, read from its subject and its entry in the predicate. -/
def parseStatementKey (apex : String) (pair : Json × Json) : Except ProofError StatementKey := do
  let document := "statement"
  let (subject, entry) := pair
  let subjectName ← textMember document (subject.get "name") "subject name"
  refuseIf (subjectName ≠ apex)
    (shapeError document s!"a subject names {subjectName}, the predicate names {apex}")
  let subjectSha256 ← textMember document ((subject.get "digest").get "sha256")
    "subject sha256 digest"
  let sha256 ← textMember document (entry.get "sha256") "key sha256"
  refuseIf (eqIgnoreAsciiCase subjectSha256 sha256 = false)
    (shapeError document "a subject digest and its predicate key disagree")
  let keyTag ← numberMember (entry.get "keyTag") "keyTag" (2 ^ 16)
  let algorithm ← numberMember (entry.get "algorithm") "algorithm" (2 ^ 8)
  let flags ← numberMember (entry.get "flags") "flags" (2 ^ 16)
  return {
    keyTag := UInt16.ofNat keyTag
    algorithm := UInt8.ofNat algorithm
    flags := UInt16.ofNat flags
    sha256 }

def statementType : String := "https://in-toto.io/Statement/v1"

def predicateType : String := "https://synchronicity.sh/zone-key/v2"

def ZoneKeyStatement.parse (bytes : List UInt8) : Except ProofError ZoneKeyStatement := do
  let document := "statement"
  let value ← reword (shapeError document) (lib.fromSlice bytes)
  let type ← textMember document (value.get "_type") "_type"
  refuseIf (type ≠ statementType) (.binding s!"statement type {type} is not {statementType}")
  let predicateName ← textMember document (value.get "predicateType") "predicateType"
  refuseIf (predicateName ≠ predicateType)
    (.binding s!"predicate type {predicateName} is not {predicateType}")
  let subjects ← orRefuse (value.get "subject").asArray?
    (shapeError document "subject is not an array")
  refuseIf (subjects.length = 0) (shapeError document "a zone-key entry claims at least one key")
  let predicate := value.get "predicate"
  let apex ← textMember document (predicate.get "apex") "apex"
  let listed ← orRefuse (predicate.get "keys").asArray?
    (shapeError document "predicate keys is not an array")
  let subjectCount := subjects.length
  let listedCount := listed.length
  refuseIf (listedCount ≠ subjectCount)
    (shapeError document s!"{subjectCount} subject(s) but {listedCount} predicate key(s)")
  let keys ← (subjects.zip listed).mapM (parseStatementKey apex)
  let action ← textMember document (predicate.get "action") "action"
  return { apex, keys, action }

/-! ## The record -/

/-- The key that signed an answer: what a record must bind. -/
structure ZoneKey where
  domain : String
  signingZone : String
  keyTag : UInt16
  dnskeyRdata : List UInt8

/-- Two names, compared as DNS compares them; a text that is no name equals nothing. -/
def sameName (a b : String) : Bool :=
  match parseName lib.toNameText a, parseName lib.toNameText b with
  | .ok a, .ok b => a.Same b
  | _, _ => false

/-- The statement describes the proven set, and the observed key is in it. -/
def ZoneKeyStatement.checkBinds
    (statement : ZoneKeyStatement) (apex : Name) (key : ZoneKey) (proven : List (List UInt8)) :
    Except ProofError Unit := do
  let claimed := statement.apex
  let named := lib.toText apex
  refuseIf (sameName lib claimed named = false)
    (.binding s!"the entry's statement names apex {claimed}, its certificate names {named}")
  let derived := ZoneKeyStatement.forKeys lib claimed proven statement.action
  refuseIf (derived.keys ≠ statement.keys)
    (.binding "the statement's key set is not the set its chain proves")
  let digest := (lib.sha256 key.dnskeyRdata).toHex
  let tag := key.keyTag
  refuseIf ((statement.keys.any fun listed => eqIgnoreAsciiCase listed.sha256 digest) = false)
    (.binding s!"the answer was signed by key tag {tag}, which is not in the authorized set")
  let action := statement.action
  refuseIf (action ≠ "create" ∧ action ≠ "rollover")
    (.binding s!"the entry's action is {action}, and only create or rollover authorizes a key")

/-- One decoded zone-key record. -/
structure RekorProof where
  logId : Hash
  logIndex : Nat
  statement : List UInt8
  canonicalizedBody : List UInt8
  checkpoint : List UInt8
  inclusionPath : List Hash

structure VerifiedRecord where
  logIndex : Nat
  treeSize : Nat
  origin : String
  action : String
deriving DecidableEq, Repr

def ChainError.text : ChainError → String
  | .absent => "the entry carries no DNSSEC chain"
  | .malformed why => s!"malformed chain: {why}"
  | .structure why => s!"chain structure: {why}"
  | .signature why => s!"chain signature: {why}"
  | .anchor why => s!"chain anchor: {why}"

/-- A chain failure as a failure of the record. -/
def chainError (error : ChainError) : ProofError :=
  .chain error.text

def dssePayloadType : String := "application/vnd.in-toto+json"

/-- The bytes that a signature over a payload of a type signs. -/
def pae (payloadType : String) (payload : List UInt8) : List UInt8 :=
  let typeLength := payloadType.utf8ByteSize
  let payloadLength := payload.length
  s!"DSSEv1 {typeLength} {payloadType} {payloadLength} ".toByteArray.data.toList ++ payload

/-- What precedes the coordinates of a P-256 key in its encoding. -/
def p256SpkiPrelude : List UInt8 :=
  [0x30, 0x59, 0x30, 0x13, 0x06, 0x07, 0x2a, 0x86, 0x48, 0xce, 0x3d, 0x02, 0x01, 0x06, 0x08, 0x2a,
    0x86, 0x48, 0xce, 0x3d, 0x03, 0x01, 0x07, 0x03, 0x42, 0x00, 0x04]

/-- The coordinates of a P-256 key, if it is one. -/
def p256Point (spki : List UInt8) : Option (List UInt8) :=
  let point := spki.drop 27
  if point.length = 64 ∧ p256SpkiPrelude ++ point = spki then some point else none

def unknownLog (logs : LogKeys) (logId : Hash) : ProofError :=
  let id := logId.toHex
  if logs.keys = [] then
    .unknownLog ("no log key is pinned in this build — name one with --rekor-key, or run " ++
      "with --rekor off")
  else
    .unknownLog s!"no pinned key with id {id}"

/-- Verify a record completely, offline. -/
def verify (proof : RekorProof) (key : ZoneKey) (logs : LogKeys) (anchors : TrustAnchors) :
    Except ProofError VerifiedRecord := do
  let logKey ← orRefuse (logs.find proof.logId) (unknownLog logs proof.logId)
  let checkpoint ← Checkpoint.parse lib proof.checkpoint
  verifyInclusion lib.sha256 proof.logIndex checkpoint.treeSize
    (leafHash lib.sha256 proof.canonicalizedBody) proof.inclusionPath checkpoint.rootHash
  checkpoint.verifySignature lib logKey
  let body ← HashedRekordBody.parse lib proof.canonicalizedBody
  let claimedApex ← reword chainError (identify lib.toDnssec body.certificate)
  let domain ← reword chainError (parseName lib.toNameText key.domain)
  let apexText := lib.toText claimedApex
  let domainText := lib.toText domain
  refuseIf (¬claimedApex.ZoneOf domain)
    (.binding (s!"the entry's certificate names {apexText}, which does not contain the " ++
      s!"membership domain {domainText} it would be authorizing"))
  let authorized ← reword chainError (authorize lib.toDnssec body.certificate anchors)
  let observedSigner ← reword chainError (parseName lib.toNameText key.signingZone)
  let chainSigner := lib.toText authorized.signingZone
  let answerSigner := lib.toText observedSigner
  refuseIf (¬authorized.signingZone.Same observedSigner)
    (.binding (s!"the entry's chain is signed by {chainSigner}, the answer was signed by " ++
      answerSigner))
  let message := pae dssePayloadType proof.statement
  let signer ← orRefuse (p256Point body.certificate.spki)
    (.attribution "the certificate's key is not a P-256 SubjectPublicKeyInfo")
  refuseIf (lib.verifies .ecdsaP256Sha256Asn1 (0x04 :: signer) message body.signature = false)
    (.attribution "the entry signature is not the certificate's key's")
  refuseIf (body.digest ≠ (lib.sha256 message).bytes)
    (.binding "the logged entry's digest is not this statement's DSSE PAE")
  let statement ← ZoneKeyStatement.parse lib proof.statement
  statement.checkBinds lib claimedApex key authorized.provenKeys
  return {
    logIndex := proof.logIndex
    treeSize := checkpoint.treeSize
    origin := checkpoint.origin
    action := statement.action }

end Rekor

end Synch.Transparency
