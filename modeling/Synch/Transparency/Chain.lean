import Synch.Transparency.Certificate

/-!
# The DNSSEC chain of a log entry

A chain is read from the declaration below the apex up to a zone the reader
anchors, and validated from the top down: each zone's key set is proved by a
delegation record that the zone above it signed, and the keys of the lowest zone
prove the declaration.  Reading records from the wire and the cryptography of
their signatures belong to the DNS library and are parameters.
-/

namespace Synch.Transparency

open Synch.Support

/-! ## Records -/

inductive RecordType where
  | txt
  | dnskey
  | ds
  | other (code : UInt16)
deriving DecidableEq, Repr

def RecordType.text : RecordType → String
  | .txt => "TXT"
  | .dnskey => "DNSKEY"
  | .ds => "DS"
  | .other code => s!"TYPE{code}"

inductive DnsClass where
  | internet
  | other (code : UInt16)
deriving DecidableEq, Repr

structure Dnskey where
  flags : UInt16
  algorithm : UInt8
  publicBytes : List UInt8
deriving DecidableEq, Repr

namespace Dnskey

variable (key : Dnskey)

def zoneKey : Bool :=
  key.flags &&& 0x0100 != 0

def revoke : Bool :=
  key.flags &&& 0x0080 != 0

/-- Whether a key may be used as a signer, and belongs in a proven set. -/
def usableSigner : Bool :=
  key.zoneKey && !key.revoke

/-- The wire form: flags, protocol, algorithm, public key. -/
def rdata : List UInt8 :=
  (key.flags >>> 8).toUInt8 :: key.flags.toUInt8 :: 3 :: key.algorithm :: key.publicBytes

end Dnskey

inductive DigestType where
  | sha256
  | sha384
  | other (code : UInt8)
deriving DecidableEq, Repr

structure Ds where
  keyTag : UInt16
  algorithm : UInt8
  digestType : DigestType
  digest : List UInt8
deriving DecidableEq, Repr

structure Rrsig where
  typeCovered : RecordType
  algorithm : UInt8
  numLabels : UInt8
  originalTtl : UInt32
  sigExpiration : UInt32
  sigInception : UInt32
  keyTag : UInt16
  signerName : Name
  sig : List UInt8
deriving DecidableEq

inductive RData where
  | dnskey (key : Dnskey)
  | ds (ds : Ds)
  | txt (txtData : List (List UInt8))
  | rrsig (sig : Rrsig)
  | other (code : UInt16) (bytes : List UInt8)
deriving DecidableEq

structure Record where
  name : Name
  dnsClass : DnsClass
  ttl : UInt32
  data : RData
deriving DecidableEq

/-- The labels that a signature counts: a leading wildcard is not one. -/
def Name.numLabels (name : Name) : Nat :=
  if name.labels.head? = some [0x2a] then name.labels.length - 1 else name.labels.length

/-- The public keys a reader trusts, with their algorithms. -/
structure TrustAnchors where
  keys : List (UInt8 × List UInt8)

def TrustAnchors.contains (anchors : TrustAnchors) (key : Dnskey) : Bool :=
  anchors.keys.contains (key.algorithm, key.publicBytes)

/-- What the DNS library and the digests compute. -/
structure Dnssec extends NameText where
  /-- The record at an offset, with the offset after it. -/
  recordAt : List UInt8 → Nat → Except String (Record × Nat)
  recordAt_advances : ∀ rrs start record after,
    recordAt rrs start = .ok (record, after) → start < after
  calculateKeyTag : Dnskey → Option UInt16
  /-- Whether a signature over a record set verifies under a key. -/
  verifyRrsig : Dnskey → Name → DnsClass → Rrsig → List Record → Bool
  sha256 : List UInt8 → Hash
  sha384 : List UInt8 → List UInt8

/-! ## Delegation records -/

/-- The key tag of a key's wire form. -/
def keyTag (rdata : List UInt8) : UInt16 :=
  let sum := (rdata.zipIdx.map fun (byte, i) =>
    if i % 2 = 0 then byte.toNat * 256 else byte.toNat).sum
  UInt16.ofNat (sum + sum / 65536 % 65536)

/-- The canonical owner name followed by the key's wire form. -/
def dsInput (zone : Name) (rdata : List UInt8) : List UInt8 :=
  zone.key.flatMap (fun label => UInt8.ofNat label.length :: label) ++ 0 :: rdata

section Dns

variable (dns : Dnssec)

def dsDigestSha256 (zone : Name) (rdata : List UInt8) : List UInt8 :=
  (dns.sha256 (dsInput zone rdata)).bytes

def dsDigestSha384 (zone : Name) (rdata : List UInt8) : List UInt8 :=
  dns.sha384 (dsInput zone rdata)

/-- Whether one delegation record is over a key's wire form. -/
def dsCovers (zone : Name) (rdata : List UInt8) (ds : Ds) : Bool :=
  ds.keyTag == keyTag rdata && ds.algorithm == rdata.getD 3 0 &&
    match ds.digestType with
    | .sha256 => ds.digest == dsDigestSha256 dns zone rdata
    | .sha384 => ds.digest == dsDigestSha384 dns zone rdata
    | .other _ => false

/-- Whether some delegation record of a set is over a key's wire form. -/
def covers (ds : List Record) (zone : Name) (rdata : List UInt8) : Bool :=
  if rdata.length < 4 then
    false
  else
    ds.any fun record =>
      match record.data with
      | .ds ds => dsCovers dns zone rdata ds
      | _ => false

/-! ## Links -/

/-- One link, decoded into the record sets that validation needs. -/
structure ParsedLink where
  zone : Name
  dnskeys : List Record
  dnskeySigs : List Rrsig
  ds : List Record
  dsSigs : List Rrsig
  txt : List Record
  txtSigs : List Rrsig

namespace ParsedLink

/-- A link without records. -/
def empty (zone : Name) : ParsedLink where
  zone := zone
  dnskeys := []
  dnskeySigs := []
  ds := []
  dsSigs := []
  txt := []
  txtSigs := []

/-- Put a signature with the set it covers; one over anything else is padding. -/
def addSig (link : ParsedLink) (sig : Rrsig) : ParsedLink :=
  match sig.typeCovered with
  | .dnskey => { link with dnskeySigs := link.dnskeySigs ++ [sig] }
  | .ds => { link with dsSigs := link.dsSigs ++ [sig] }
  | .txt => { link with txtSigs := link.txtSigs ++ [sig] }
  | .other _ => link

/-- Put a record into its set. -/
def add (link : ParsedLink) (record : Record) : ParsedLink :=
  match record.data with
  | .dnskey _ => { link with dnskeys := link.dnskeys ++ [record] }
  | .ds _ => { link with ds := link.ds ++ [record] }
  | .txt _ => { link with txt := link.txt ++ [record] }
  | .rrsig sig => link.addSig sig
  | .other _ _ => link

/-- A record of a link must be owned by its zone and be of the internet class. -/
def checkRecord (link : ChainLink) (zone : Name) (record : Record) : Except ChainError Unit := do
  let owner := link.zone
  let name := dns.toText record.name
  refuseIf (¬record.name.Same zone) (.structure s!"{owner} carries a record owned by {name}")
  refuseIf (record.dnsClass ≠ .internet) (.structure s!"{owner}: a record is not class IN")

def readRecords (link : ChainLink) (zone : Name) (start : Nat) (out : ParsedLink) :
    Except ChainError ParsedLink :=
  if start < link.rrs.length then
    match h : dns.recordAt link.rrs start with
    | .error why =>
      let owner := link.zone
      .error (.malformed s!"{owner}: {why}")
    | .ok (record, after) =>
      have := dns.recordAt_advances _ _ _ _ h
      do
        checkRecord dns link zone record
        readRecords link zone after (out.add record)
  else
    .ok out
termination_by link.rrs.length - start

def parse (link : ChainLink) : Except ChainError ParsedLink := do
  let zone ← parseName dns.toNameText link.zone
  readRecords dns link zone 0 (empty zone)

/-- The record set of a type, with the signatures over it. -/
def rrset (link : ParsedLink) : RecordType → Option (List Record × List Rrsig)
  | .txt => some (link.txt, link.txtSigs)
  | .dnskey => some (link.dnskeys, link.dnskeySigs)
  | .ds => some (link.ds, link.dsSigs)
  | .other _ => none

end ParsedLink

/-- The wire form of the key in a record. -/
def rdataOf (record : Record) : List UInt8 :=
  match record.data with
  | .dnskey key => key.rdata
  | _ => []

def recordIsUsableSigner (record : Record) : Bool :=
  match record.data with
  | .dnskey key => key.usableSigner
  | _ => false

/-- The most signature verifications that one record set may cost. -/
def maxRrsigVerifications : Nat := 16

/-- Try a signature under each key that may have made it.  Returns the budget that is
left, or nothing if the signature verified. -/
def trySig (link : ParsedLink) (typeCovered : RecordType) (rrset : List Record) (sig : Rrsig) :
    List Record → Nat → Except ChainError (Option Nat)
  | [], budget => .ok (some budget)
  | record :: keys, budget =>
    match record.data with
    | .dnskey key =>
      if key.usableSigner = false ∨ dns.calculateKeyTag key ≠ some sig.keyTag then
        trySig link typeCovered rrset sig keys budget
      else
        match budget with
        | 0 =>
          let type := typeCovered.text
          let zone := dns.toText link.zone
          .error (.signature (s!"the {type} RRset at {zone} offers more than " ++
            s!"{maxRrsigVerifications} signature/key pairings to try"))
        | budget + 1 =>
          if dns.verifyRrsig key link.zone .internet sig rrset then
            .ok none
          else
            trySig link typeCovered rrset sig keys budget
    | _ => trySig link typeCovered rrset sig keys budget

/-- Try the signatures over a record set. -/
def trySigs (link : ParsedLink) (typeCovered : RecordType) (rrset keys : List Record) :
    List Rrsig → Nat → Except ChainError Unit
  | [], _ =>
    let type := typeCovered.text
    let zone := dns.toText link.zone
    .error (.signature (s!"no RRSIG over the {type} RRset at {zone} verifies under a " ++
      "trusted, unrevoked zone key"))
  | sig :: sigs, budget =>
    if sig.typeCovered ≠ typeCovered then
      trySigs link typeCovered rrset keys sigs budget
    else do
      match ← trySig dns link typeCovered rrset sig keys budget with
      | none => return ()
      | some budget => trySigs link typeCovered rrset keys sigs budget

variable (link : ParsedLink)

/-- Some signature over a record set verifies under some key of a set. -/
def verifyRrset (typeCovered : RecordType) (keys : List Record) : Except ChainError Unit :=
  match link.rrset typeCovered with
  | none =>
    let type := typeCovered.text
    .error (.signature s!"no rrset of type {type} on a chain link")
  | some (rrset, sigs) =>
    trySigs dns link typeCovered rrset keys sigs maxRrsigVerifications

/-! ## The ladder -/

variable (anchors : TrustAnchors)

/-- Whether a record is a usable key that the reader trusts. -/
def anchoredKey (record : Record) : Bool :=
  match record.data with
  | .dnskey key => key.usableSigner && anchors.contains key
  | _ => false

/-- The top link: a key set that a key the reader trusts has signed. -/
def verifyDnskeySet (link : ParsedLink) : Except ChainError (List Record) := do
  let zone := dns.toText link.zone
  let anchored := link.dnskeys.filter (anchoredKey anchors)
  refuseIf (link.dnskeys = []) (.anchor s!"{zone} carries no DNSKEY RRset to anchor")
  refuseIf (anchored = [])
    (.anchor s!"no DNSKEY at {zone} is an unrevoked zone key this reader trusts")
  verifyRrset dns link .dnskey anchored
  return link.dnskeys

/-- A link's key set, proved by delegation records of the zone above. -/
def verifyDnskeySetUnder (ds : List Record) : Except ChainError (List Record) := do
  let zone := dns.toText link.zone
  let covered := link.dnskeys.filter fun record =>
    recordIsUsableSigner record && covers dns ds link.zone (rdataOf record)
  refuseIf (covered = [])
    (.signature s!"no unrevoked zone key at {zone} matches a DS from its parent")
  verifyRrset dns link .dnskey covered
  return link.dnskeys

/-- A link's delegation records, proved by the trusted keys of the zone above. -/
def verifyDsSet (parentKeys : List Record) : Except ChainError (List Record) := do
  let zone := dns.toText link.zone
  refuseIf (link.ds = []) (.structure s!"{zone} carries no DS RRset")
  verifyRrset dns link .ds parentKeys
  return link.ds

/-- A zone must lie properly above the one below it. -/
def checkAbove (pair : ParsedLink × ParsedLink) : Except ChainError Unit :=
  let below := dns.toText pair.1.zone
  let above := dns.toText pair.2.zone
  refuseIf (pair.2.zone.Same pair.1.zone ∨ ¬pair.2.zone.ZoneOf pair.1.zone)
    (.structure s!"{above} is not an ancestor of {below}")

/-- One step down the ladder: the keys that the zone above proves for a link. -/
def descend (trusted : List Record) (link : ParsedLink) : Except ChainError (List Record) := do
  let ds ← verifyDsSet dns link trusted
  verifyDnskeySetUnder dns link ds

/-- From the anchored top down to the zone of the bottom link. -/
def walkLadder (ladder : List ParsedLink) : Except ChainError (List Record × String) := do
  (ladder.zip ladder.tail).forM (checkAbove dns)
  match ladder.getLast? with
  | none => .error .absent
  | some top => do
    let trusted ← verifyDnskeySet dns anchors top
    let trusted ← ladder.dropLast.reverse.foldlM (descend dns) trusted
    return (trusted, dns.toText top.zone)

/-! ## The declaration -/

def transparencyLabel : String := "_synchronicity-transparency"

def transparencyText : String := "v=sync1 transparency"

/-- Where the declaration for an apex lives. -/
def transparencyName (apex : Name) : Except ChainError Name :=
  let text := dns.toText apex
  parseName dns.toNameText s!"{transparencyLabel}.{text}"

/-- Whether one record carries the text of a declaration. -/
def declares (record : Record) : Bool :=
  match record.data with
  | .txt txtData => txtData.flatten == transparencyText.toByteArray.data.toList
  | _ => false

/-- A signature over the declaration must be by its zone, and not over a wildcard. -/
def checkDeclarationSig (signingZone : Name) (sig : Rrsig) : Except ChainError Unit := do
  let owner := dns.toText link.zone
  let signer := dns.toText sig.signerName
  let zone := dns.toText signingZone
  refuseIf (sig.numLabels.toNat < link.zone.numLabels)
    (.structure (s!"the declaration at {owner} was expanded from a wildcard, so the " ++
      "zone never published one"))
  refuseIf (¬sig.signerName.toLowercase.Same signingZone)
    (.structure (s!"the declaration at {owner} names {signer} as its signer, not {zone}, the " ++
      "zone the chain says holds it"))

def verifyDeclaration (zoneKeys : List Record) (signingZone : Name) : Except ChainError Unit := do
  let owner := dns.toText link.zone
  let text := transparencyText.quote
  refuseIf (link.txt = [])
    (.structure s!"{owner} carries no TXT RRset, so the zone declared nothing")
  refuseIf (link.txt.any declares = false)
    (.structure s!"the TXT RRset at {owner} does not read {text}")
  link.txtSigs.forM (checkDeclarationSig dns link signingZone)
  verifyRrset dns link .txt zoneKeys

structure ValidChain where
  anchorZone : String
  links : Nat
  anchoredDirectly : Bool
deriving DecidableEq, Repr

/-- The proven keys, their zone and the chain, for a chain and an apex. -/
def validateInner (chain : DnssecChain) (apex : Name) (anchors : TrustAnchors) :
    Except ChainError (List (List UInt8) × Name × ValidChain) := do
  refuseIf (chain.links = []) .absent
  let declaredAt ← transparencyName dns apex
  let parsed ← chain.links.mapM (ParsedLink.parse dns)
  let declared := dns.toText declaredAt
  match parsed with
  | declaration :: bottom :: above => do
    let first := dns.toText declaration.zone
    refuseIf (¬declaration.zone.Same declaredAt)
      (.structure s!"the chain starts at {first}, not the declaration at {declared}")
    let signingZone := bottom.zone
    let zone := dns.toText signingZone
    let name := dns.toText apex
    refuseIf (¬signingZone.ZoneOf apex)
      (.structure (s!"the ladder starts at {zone}, which does not contain the apex " ++ name))
    let ladder := bottom :: above
    let (trusted, anchorZone) ← walkLadder dns anchors ladder
    verifyDeclaration dns declaration trusted signingZone
    let proven := (trusted.filter recordIsUsableSigner).map rdataOf
    refuseIf (proven = [])
      (.structure (s!"the DNSKEY RRset at {zone} holds no unrevoked zone key, so the " ++
        "delegation authorizes nothing"))
    return (proven, signingZone,
      { anchorZone, links := ladder.length, anchoredDirectly := ladder.length == 1 })
  | short =>
    let count := short.length
    .error (.structure (s!"the chain has {count} link(s): it must carry the declaration at " ++
      s!"{declared} and the zone that signs it"))

/-- Everything a zone-key certificate establishes about itself. -/
structure Authorized where
  apex : Name
  signingZone : Name
  provenKeys : List (List UInt8)
  chain : ValidChain
deriving DecidableEq

/-- The apex that a certificate names. -/
def identify (certificate : Certificate) : Except ChainError Name :=
  reword (fun why => .structure why.text) (certificate.singleDnsName dns.toNameText)

/-- The one path from a certificate to the keys that are delegated for its zone. -/
def authorize (certificate : Certificate) (anchors : TrustAnchors) :
    Except ChainError Authorized := do
  let apex ← identify dns certificate
  let value ← orRefuse (certificate.extension oidDnssecChain) .absent
  let carried ← reword (fun why => .malformed why.text) (DnssecChain.decode value)
  let (provenKeys, signingZone, chain) ← validateInner dns carried apex anchors
  return { apex, signingZone, provenKeys, chain }

end Dns

end Synch.Transparency
