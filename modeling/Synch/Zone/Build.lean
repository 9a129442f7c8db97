import Synch.Membership.Keys
import Synch.Records.Keys
import Synch.Support.Cycle
import Synch.Zone.Rdata

/-!
# Building the zone

The control plane turns what it read from its database into the zone's record
sets, the chain of denial records included, checks the product's invariants once
more on the way, and stores each set with its signature.  The table's primary key
is the owner's text with the type, so two sets under one key fail the publication.
-/

namespace Synch.Zone

open Synch.Membership Synch.Support
open Synch.Records (utf8)
open Synch.Transparency (Label encodedLength)

/-! ## Input -/

structure ZoneMeta where
  apex : ZoneName
  soaSerial : Nat
  dnskeyPublic : List UInt8
  dnskeyIncoming : List UInt8
  short_keys : dnskeyPublic.length ≤ 60000 ∧ dnskeyIncoming.length ≤ 60000

structure NsHost where
  host : ZoneName
  ipv4 : String
  ipv6 : String

/-- One published member: a device's label and one of its live keys. -/
structure Member where
  label : String
  nkZ32 : String
  relay : String
  addr : String
deriving DecidableEq, Repr

/-- An owner of membership records and its members. -/
structure TxtName where
  owner : ZoneName
  members : List Member

structure RecordText where
  text : String
  short : text.utf8ByteSize ≤ 60000

/-- The labels the control plane's own records live under. -/
def rekorLabel : Label := utf8 "_synchronicity-rekor"
def transparencyLabel : Label := utf8 "_synchronicity-transparency"
def cpLabel : Label := utf8 "_synchronicity-cp"
def membershipLabel : Label := utf8 "_synchronicity"

def rekorPartLabel (index : Int) : Label :=
  if index ≤ 1 then rekorLabel else rekorLabel ++ utf8 ("-" ++ toString index.toNat)

/-- A proof record, with the part number that decides its owner. -/
structure ProofPart where
  index : Int
  text : RecordText
  valid_label : validLabel (rekorPartLabel index) = true

/-- What the database holds, names parsed and texts fit for a record. -/
structure ZoneInput where
  zone : ZoneMeta
  nsHosts : List NsHost
  txtNames : List TxtName
  rekorProofs : List ProofPart
  cpEndpoints : List RecordText

inductive BuildError where
  | noNameservers
  | ownerOutsideZone (owner : List UInt8)
  | duplicateLabelInZone (label : String)
  | invalidLabel (label : List UInt8)
  | invalidNk (nk : String)
  | ambiguousNk (nk : String)
  | badGlueAddress (address : String)
  | invalidHint (hint : String)
deriving DecidableEq, Repr

/-! ## Validation -/

variable (lib : KeyLib)

/-- The bytes of a key in z-base-32. -/
def validateNk (nk : String) : Option (List UInt8) :=
  match lib.decode nk with
  | .ok bytes => if bytes.length = 32 ∧ nk.length = 52 then some bytes else none
  | .error _ => none

/-- A hint that cannot end the field it stands in: printable ASCII, no blank, no
quote. -/
def validHint (hint : String) : Bool :=
  hint.length ≤ 255 && hint.toList.all fun c => 0x21 ≤ c.toNat && c.toNat ≤ 0x7e && c.toNat ≠ 0x22

def validateMember (member : Member) : Except BuildError Unit :=
  if !validDeviceLabel (utf8 member.label) then .error (.invalidLabel (utf8 member.label))
  else
    match validateNk lib member.nkZ32 with
    | none => .error (.invalidNk member.nkZ32)
    | some _ =>
      if !validHint member.relay then .error (.invalidHint member.relay)
      else if !validHint member.addr then .error (.invalidHint member.addr)
      else .ok ()

/-- Members of one owner: each well formed, one label for each key, and at most two
records for each label. -/
def validateMembers (members : List Member) : Except BuildError Unit := do
  members.forM (validateMember lib)
  (members.map Member.nkZ32).eraseDups.forM fun nk =>
    refuseIf (((members.filter (·.nkZ32 = nk)).map Member.label).eraseDups.length ≠ 1)
      (.ambiguousNk nk)
  (members.map Member.label).eraseDups.forM fun label =>
    refuseIf (¬(members.filter (·.label = label)).length ≤ 2) (.duplicateLabelInZone label)

/-- Whether an owner is `_synchronicity.<network>.<slug>.<apex>`. -/
def membershipOwnerShape (owner apex : Name) : Bool :=
  match owner.take (owner.length - apex.length) with
  | [service, network, slug] =>
    service == membershipLabel && validDnsLabel network && validDnsLabel slug
  | _ => false

def validate (input : ZoneInput) : Except BuildError Unit :=
  input.txtNames.forM fun txtName =>
    if !inZone txtName.owner.labels input.zone.apex.labels then
      .error (.ownerOutsideZone (toText txtName.owner.labels))
    else if !membershipOwnerShape txtName.owner.labels input.zone.apex.labels then
      .error (.invalidLabel (toText txtName.owner.labels))
    else validateMembers lib txtName.members

/-! ## Records -/

structure Rrset where
  owner : Name
  rtype : Nat
  ttl : Nat
  rdatas : List (List UInt8)
deriving DecidableEq, Repr

def ttlData : Nat := 300
def ttlInfra : Nat := 3600
def ttlRekor : Nat := 300

def txtRdata (text : String) : List UInt8 :=
  chunkTxt (utf8 text)

/-- A name's text, its bytes being ASCII. -/
def asciiText (bytes : List UInt8) : String :=
  String.ofList (bytes.map fun byte => Char.ofNat byte.toNat)

def stripDot (text : String) : String :=
  if text.toList.getLast? = some '.' then String.ofList text.toList.dropLast else text

/-- The text of a membership record. -/
def sync1Text (label nk relay addr apex : String) : String :=
  let base := "v=sync1 id=" ++ label ++ " nk=" ++ nk ++ " apex=" ++ stripDot apex
  let withRelay := if relay = "" then base else base ++ " relay=" ++ relay
  if addr = "" then withRelay else withRelay ++ " addr=" ++ addr

def memberText (apex : ZoneName) (member : Member) : String :=
  sync1Text member.label member.nkZ32 member.relay member.addr (asciiText (toText apex.labels))

variable (parseIp : String → Option (List UInt8))

/-- The type and data of an address: four bytes or sixteen. -/
def addressRdata (text : String) : Option (Nat × List UInt8) :=
  match parseIp text with
  | some bytes =>
    if bytes.length = 4 then some (typeA, bytes)
    else if bytes.length = 16 then some (typeAaaa, bytes)
    else none
  | none => none

/-- The addresses of one nameserver inside the zone. -/
def hostGlue (host : NsHost) : Except BuildError (List Rrset) := do
  let parsed ← ([host.ipv4, host.ipv6].filter (· ≠ "")).mapM fun address =>
    orRefuse (addressRdata parseIp address) (.badGlueAddress address)
  return ([typeA, typeAaaa].filter fun rtype => parsed.any (·.1 = rtype)).map fun rtype =>
    ⟨host.host.labels, rtype, ttlInfra, (parsed.filter (·.1 = rtype)).map Prod.snd⟩

def glueRrsets (input : ZoneInput) : Except BuildError (List Rrset) := do
  let hosts := input.nsHosts.filter fun host =>
    inZone host.host.labels input.zone.apex.labels
  return (← hosts.mapM (hostGlue parseIp)).flatten

/-- One set for each part number, in their order. -/
def rekorRrsets (input : ZoneInput) : List Rrset :=
  ((input.rekorProofs.map ProofPart.index).eraseDups.insertionSort (· ≤ ·)).map fun index =>
    ⟨rekorPartLabel index :: input.zone.apex.labels, typeTxt, ttlRekor,
      (input.rekorProofs.filter (·.index = index)).map fun part => txtRdata part.text.text⟩

/-- Owners without repetition, in canonical order. -/
def ownersInOrder (rrsets : List Rrset) : List Name :=
  (rrsets.map Rrset.owner).eraseDups.insertionSort fun a b => compareNames a b ≠ .gt

/-- The types a denial record lists for an owner. -/
def typesAt (data : List Rrset) (owner : Name) : List Nat :=
  typeRrsig :: typeNsec :: (data.filter (·.owner = owner)).map Rrset.rtype

/-- One denial record for each owner, leading to the next. -/
def nsecChain (data : List Rrset) : List Rrset :=
  (successors (ownersInOrder data)).map fun (owner, next) =>
    ⟨owner, typeNsec, ttlData, [nsecRdata next (typesAt data owner)]⟩

def keyFlags : Nat := 257
def keyAlgorithm : Nat := 13

def dnskeyRdatas (zone : ZoneMeta) : List (List UInt8) :=
  if zone.dnskeyIncoming = [] then [dnskeyRdata keyFlags keyAlgorithm zone.dnskeyPublic]
  else
    [dnskeyRdata keyFlags keyAlgorithm zone.dnskeyPublic,
      dnskeyRdata keyFlags keyAlgorithm zone.dnskeyIncoming]

/-- The sets the zone holds besides the chain, given its addresses. -/
def dataRrsets (input : ZoneInput) (firstNs : ZoneName) (glue : List Rrset) : List Rrset :=
  let apex := input.zone.apex.labels
  [⟨apex, typeSoa, ttlData,
      [soaRdata firstNs.labels (utf8 "hostmaster" :: apex) input.zone.soaSerial
        86400 7200 1209600 ttlData]⟩,
    ⟨apex, typeNs, ttlInfra, input.nsHosts.map fun host => encode host.host.labels⟩,
    ⟨apex, typeDnskey, ttlInfra, dnskeyRdatas input.zone⟩,
    ⟨transparencyLabel :: apex, typeTxt, ttlRekor, [txtRdata "v=sync1 transparency"]⟩] ++
  (if input.cpEndpoints = [] then []
    else [⟨cpLabel :: apex, typeTxt, ttlData,
      input.cpEndpoints.map fun url => txtRdata ("v=synccp1 url=" ++ url.text)⟩]) ++
  glue ++
  input.txtNames.map (fun txtName =>
    ⟨txtName.owner.labels, typeTxt, ttlData,
      txtName.members.map fun member => txtRdata (memberText input.zone.apex member)⟩) ++
  rekorRrsets input

/-- All record sets of the zone. -/
def build (parseIp : String → Option (List UInt8)) (input : ZoneInput) :
    Except BuildError (List Rrset) := do
  validate lib input
  let firstNs ← orRefuse (input.nsHosts.head?.map NsHost.host) .noNameservers
  let glue ← glueRrsets parseIp input
  let data := dataRrsets input firstNs glue
  return data ++ nsecChain data

/-! ## The table -/

/-- A stored set with its signature record. -/
structure Row where
  rrset : Rrset
  rrsigWire : List UInt8
deriving DecidableEq, Repr

def Row.name (row : Row) : List UInt8 :=
  toText row.rrset.owner

def Row.key (row : Row) : List UInt8 :=
  sortKey row.rrset.owner

/-- The set's records, in the order of their data. -/
def Row.rrsetWire (row : Row) : List UInt8 :=
  (row.rrset.rdatas.insertionSort fun a b => compare a b ≠ .gt).flatMap
    (rr row.rrset.owner row.rrset.rtype row.rrset.ttl)

structure Table where
  rows : List Row
  primary_key : (rows.map fun row => (row.name, row.rrset.rtype)).Nodup

/-- Stores the sets, if no two have one primary key. -/
def store (sign : Rrset → List UInt8) (rrsets : List Rrset) : Option Table :=
  let rows := rrsets.map fun rrset => ⟨rrset, sign rrset⟩
  if h : (rows.map fun row => (row.name, row.rrset.rtype)).Nodup then some ⟨rows, h⟩ else none

/-- The table a publication leaves, if it does not fail. -/
def publish (parseIp : String → Option (List UInt8)) (sign : Rrset → List UInt8)
    (input : ZoneInput) : Option Table :=
  match build lib parseIp input with
  | .ok rrsets => store sign rrsets
  | .error _ => none

end Synch.Zone
