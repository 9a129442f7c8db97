import Synch.Support.Base64
import Synch.Transparency.Ladder
import Synch.Transparency.Rekor
import Synch.Transparency.Watch

/-!
# What a monitor makes of an entry

The monitor reads the same certificate as the client and asks the same question
about its chain.  Whatever a client accepts for a watched domain, the monitor
reports with the key that the client accepted.
-/

namespace Synch.Transparency

open List Synch.Support

/-- Whether an entry is an authorization or noise. -/
inductive Tier where
  | b
  | a
deriving DecidableEq, Repr

/-- One key of a proven set, as an operator needs to see it. -/
structure AuthorizedKey where
  keyTag : UInt16
  sha256 : String
  ds : String
  dsSha384 : String
deriving DecidableEq, Repr

/-- One classified entry. -/
structure Finding where
  logIndex : Nat
  apex : String
  keys : List AuthorizedKey
  tier : Tier
  reasons : List String
deriving DecidableEq, Repr

section Classify

variable (lib : Library)

/-- The fields of a delegation record for a key, as a registrar shows them. -/
def dsFieldsOf (rdata : List UInt8) (digestType : Nat) (digest : List UInt8) : String :=
  let tag := keyTag rdata
  let algorithm := rdata.getD 3 0
  let hex := String.ofList (digest.flatMap hexDigits)
  s!"{tag} {algorithm} {digestType} {hex}"

def dsFields (zone : Name) (rdata : List UInt8) : String :=
  dsFieldsOf rdata 2 (dsDigestSha256 lib.toDnssec zone rdata)

def dsFieldsSha384 (zone : Name) (rdata : List UInt8) : String :=
  dsFieldsOf rdata 4 (dsDigestSha384 lib.toDnssec zone rdata)

/-- A proven key of a zone as it is reported. -/
def authorizedKey (zone : Name) (rdata : List UInt8) : AuthorizedKey where
  keyTag := keyTag rdata
  sha256 := (lib.sha256 rdata).toHex
  ds := dsFields lib zone rdata
  dsSha384 := dsFieldsSha384 lib zone rdata

/-- Classify one entry body, if it names an apex. -/
def classify (body : HashedRekordBody) (logIndex : Nat) (anchors : TrustAnchors) : Option Finding :=
  match body.certificate.singleDnsName lib.toNameText with
  | .error _ => none
  | .ok apex =>
    let name := lib.toText apex
    match authorize lib.toDnssec body.certificate anchors with
    | .ok authorized =>
      let keys := authorized.provenKeys.map (authorizedKey lib authorized.signingZone)
      let zone := lib.toText authorized.signingZone
      let servedBy :=
        if authorized.signingZone.Same apex then "" else s!", served out of {zone}"
      let anchor := authorized.chain.anchorZone
      let links := authorized.chain.links
      let count := keys.length
      some
        { logIndex := logIndex
          apex := name
          keys := keys
          tier := .a
          reasons := [s!"DNSSEC chain valid to {anchor} ({links} link(s)): {count} key(s) " ++
            s!"authorized for {name}{servedBy}"] }
    | .error why =>
      let text := why.text
      some
        { logIndex := logIndex
          apex := name
          keys := []
          tier := .b
          reasons := [s!"unauthorized claim: {text}"] }

/-- What the walk over a log finds in an entry that is bound to the checkpoint. -/
def entryFinding
    (known : KnownKeys) (anchors : TrustAnchors) (index : Nat) (body : List UInt8) :
    Option Finding :=
  match HashedRekordBody.parse lib body with
  | .error _ => none
  | .ok parsed =>
    match parsed.certificate.singleDnsName lib.toNameText with
    | .error _ => none
    | .ok name =>
      if known.watches lib.toNameText name then classify lib parsed index anchors else none

/-! ## The client's side -/

variable {lib}

/-- What a record that verifies has passed. -/
theorem verify_cases {proof : RekorProof} {key : ZoneKey} {logs : LogKeys} {anchors : TrustAnchors}
    {record : VerifiedRecord} (h : verify lib proof key logs anchors = .ok record) :
    ∃ body apex domain authorized statement,
      HashedRekordBody.parse lib proof.canonicalizedBody = .ok body ∧
      body.certificate.singleDnsName lib.toNameText = .ok apex ∧
      parseName lib.toNameText key.domain = .ok domain ∧ apex.ZoneOf domain ∧
      authorize lib.toDnssec body.certificate anchors = .ok authorized ∧
      ZoneKeyStatement.checkBinds lib statement apex key authorized.provenKeys = .ok () := by
  simp only [verify, identify, bind_eq_ok_iff, orRefuse_eq_ok_iff, reword_eq_ok_iff,
    refuseIf_eq_ok_iff, not_not] at h
  obtain ⟨_, _, checkpoint, _, _, _, _, _, body, hbody, apex, hapex, domain, hdomain, _,
    hcontains, authorized, hauthorized, _, _, _, _, _, _, _, _, _, _, statement, _, _, hbinds,
    _⟩ := h
  exact ⟨body, apex, domain, authorized, statement, hbody, hapex, hdomain, hcontains,
    hauthorized, hbinds⟩

theorem toLower_digitChar {n : Nat} (h : n < 16) : (Nat.digitChar n).toLower = Nat.digitChar n := by
  have hall : ∀ n < 16, (Nat.digitChar n).toLower = Nat.digitChar n := by decide
  exact hall n h

/-- Digests in hexadecimal are in lower case already. -/
theorem toLower_toHex (hash : Hash) : hash.toHex.toList.map Char.toLower = hash.toHex.toList := by
  have hdigits : ∀ byte : UInt8, (hexDigits byte).map Char.toLower = hexDigits byte := by
    intro byte
    have hbyte := byte.toNat_lt
    simp only [hexDigits, map_cons, map_nil]
    rw [toLower_digitChar (by omega), toLower_digitChar (by omega)]
  rw [Hash.toHex, String.toList_ofList, map_flatMap]
  simp only [hdigits]

theorem eq_of_eqIgnoreAsciiCase_toHex {a b : Hash} (h : eqIgnoreAsciiCase a.toHex b.toHex = true) :
    a.toHex = b.toHex := by
  rw [eqIgnoreAsciiCase, beq_iff_eq, toLower_toHex, toLower_toHex] at h
  exact String.toList_injective h

/-- The digest of a key that a statement binds is the digest of a proven key. -/
theorem exists_proven_of_checkBinds
    {statement : ZoneKeyStatement} {apex : Name} {key : ZoneKey} {proven : List (List UInt8)}
    {done : Unit} (h : statement.checkBinds lib apex key proven = .ok done) :
    ∃ rdata ∈ proven, (lib.sha256 rdata).toHex = (lib.sha256 key.dnskeyRdata).toHex := by
  simp only [ZoneKeyStatement.checkBinds, bind_eq_ok_iff, refuseIf_eq_ok_iff, not_not,
    Bool.not_eq_false] at h
  obtain ⟨_, _, _, hkeys, _, hmember, _⟩ := h
  obtain ⟨listed, hlisted, hsame⟩ := any_eq_true.mp hmember
  rw [← hkeys, ZoneKeyStatement.forKeys, mem_insertionSort, mem_map] at hlisted
  obtain ⟨rdata, hrdata, rfl⟩ := hlisted
  exact ⟨rdata, hrdata, eq_of_eqIgnoreAsciiCase_toHex hsame⟩

/-! ## The monitor's side -/

theorem classify_of_authorize {body : HashedRekordBody} {apex : Name} {anchors : TrustAnchors}
    {authorized : Authorized} (hapex : body.certificate.singleDnsName lib.toNameText = .ok apex)
    (hauthorized : authorize lib.toDnssec body.certificate anchors = .ok authorized) (index : Nat) :
    ∃ finding, classify lib body index anchors = some finding ∧ finding.tier = .a ∧
      finding.keys = authorized.provenKeys.map (authorizedKey lib authorized.signingZone) := by
  simp only [classify, hapex, hauthorized]
  exact ⟨_, rfl, rfl, rfl⟩

/-- A list that watches a domain watches the zones that contain it. -/
theorem watches_of_zoneOf {known : KnownKeys} {names : NameText} {apex domain : Name}
    (hwatches : known.watches names domain = true) (hzone : apex.ZoneOf domain) :
    known.watches names apex = true := by
  rw [watches_eq_true_iff] at hwatches ⊢
  exact hwatches.of_zone hzone

end Classify

/-- Whatever a client accepts for a domain, a monitor that watches the domain reports:
it watches the entry's name, and classifies the entry as an authorization of the key. -/
theorem accepted_is_reported
    (lib : Library) (proof : RekorProof) (key : ZoneKey) (logs : LogKeys)
    (anchors : TrustAnchors) (record : VerifiedRecord)
    (haccepted : verify lib proof key logs anchors = .ok record)
    (domain : Name) (hdomain : parseName lib.toNameText key.domain = .ok domain)
    (known : KnownKeys) (hwatches : known.watches lib.toNameText domain = true) (index : Nat) :
    ∃ body name finding,
      HashedRekordBody.parse lib proof.canonicalizedBody = .ok body ∧
      body.certificate.singleDnsName lib.toNameText = .ok name ∧
      known.watches lib.toNameText name = true ∧
      classify lib body index anchors = some finding ∧
      entryFinding lib known anchors index proof.canonicalizedBody = some finding ∧
      finding.tier = .a ∧
      (lib.sha256 key.dnskeyRdata).toHex ∈ finding.keys.map AuthorizedKey.sha256 := by
  obtain ⟨body, apex, domain', authorized, statement, hbody, hapex, hdomain', hcontains,
    hauthorized, hbinds⟩ := verify_cases haccepted
  obtain rfl : domain = domain' := Except.ok.inj (hdomain.symm.trans hdomain')
  have hwatched := watches_of_zoneOf hwatches hcontains
  obtain ⟨finding, hfinding, htier, hkeys⟩ := classify_of_authorize hapex hauthorized index
  obtain ⟨rdata, hrdata, hdigest⟩ := exists_proven_of_checkBinds hbinds
  refine ⟨body, apex, finding, hbody, hapex, hwatched, hfinding, ?_, htier, ?_⟩
  · simp only [entryFinding, hbody, hapex, hwatched, if_true]
    exact hfinding
  · rw [hkeys, map_map, mem_map]
    exact ⟨rdata, hrdata, hdigest⟩

/-! ## A record for one zone -/

def base64Padded (bytes : List UInt8) : List Char :=
  let digits := base64Digits bytes
  digits ++ List.replicate ((4 - digits.length % 4) % 4) '='

def base64Text (bytes : List UInt8) : String :=
  String.ofList (base64Padded bytes)

def utf8Bytes (text : String) : List UInt8 :=
  text.toByteArray.data.toList

theorem textOf_utf8Bytes (text : String) : textOf (utf8Bytes text) = some text :=
  textOf_toByteArray text

def examplePoint : List UInt8 :=
  octets 32 0x2a66eb1af37a82ce3e7545045cc7acd0000ee1dc0d17e0162a138f3225b6b053 ++
    octets 32 0x1e489dde6a8b060e1f2eb358f5c7b7ded785b85aafe8323d721566aa0aaf7edc

def exampleAlgorithm : List UInt8 :=
  tlv 0x30 (tlv 0x06 [0x2a, 0x86, 0x48, 0xce, 0x3d, 0x04, 0x03, 0x02])

def exampleExtensions : List UInt8 :=
  tlv 0x30 (tlv 0x06 oidSubjectAltName ++
      tlv 0x04 (tlv 0x30 (tlv 0x82 (utf8Bytes "example")))) ++
    tlv 0x30 (tlv 0x06 oidDnssecChain ++ tlv 0x04 exampleChain.encode)

def exampleTbs : List UInt8 :=
  tlv 0x30 (tlv 0xa0 (tlv 0x02 [2]) ++ tlv 0x02 [1] ++ exampleAlgorithm ++ tlv 0x30 [] ++
    tlv 0x30 (tlv 0x17 (utf8Bytes "250101000000Z") ++ tlv 0x17 (utf8Bytes "350101000000Z")) ++
    tlv 0x30 [] ++ p256SpkiPrelude ++ examplePoint ++
    tlv 0xa3 (tlv 0x30 exampleExtensions))

/-- An ECDSA signature, as the encoding of its two numbers. -/
def ecdsaSignature (r s : List UInt8) : List UInt8 :=
  tlv 0x30 (tlv 0x02 r ++ tlv 0x02 s)

def exampleCertificateDer : List UInt8 :=
  tlv 0x30 (exampleTbs ++ exampleAlgorithm ++ tlv 0x03 (0 :: ecdsaSignature
    (0 :: octets 32 0x9807604c5c84d170807ddd98318265261492401faad177f9a8cdd24d0365a976)
    (octets 32 0x3a7f45f46326170070cc4ff394198db7566bc4b095ef1e3cd752164e28fce20b)))

def exampleKeyDigest : Hash :=
  .ofNat 0x6e0fe140b33d53d63ea56d27fc5704ada2127fd567d4b9f560adbcb2804fc3c2

def exampleStatement : List UInt8 :=
  utf8Bytes "\x7b\"_type\":\"https://in-toto.io/Statement/v1\",\"subject\":[\x7b\"name\":" ++
    utf8Bytes "\"example.\",\"digest\":\x7b\"sha256\":\"" ++ utf8Bytes exampleKeyDigest.toHex ++
    utf8Bytes "\"\x7d\x7d],\"predicateType\":\"https://synchronicity.sh/zone-key/v2\"," ++
    utf8Bytes "\"predicate\":\x7b\"apex\":\"example.\",\"keys\":[\x7b\"keyTag\":2045," ++
    utf8Bytes "\"algorithm\":15,\"flags\":257,\"sha256\":\"" ++
    utf8Bytes exampleKeyDigest.toHex ++ utf8Bytes "\"\x7d],\"action\":\"create\"\x7d\x7d"

def exampleStatementJson : Json :=
  .object
    [("_type", .string statementType),
      ("subject", .array [.object
        [("name", .string "example."),
          ("digest", .object [("sha256", .string exampleKeyDigest.toHex)])]]),
      ("predicateType", .string predicateType),
      ("predicate", .object
        [("apex", .string "example."),
          ("keys", .array [.object
            [("keyTag", .natural 2045), ("algorithm", .natural 15), ("flags", .natural 257),
              ("sha256", .string exampleKeyDigest.toHex)]]),
          ("action", .string "create")])]

def examplePaeDigest : Hash :=
  .ofNat 0x20d521b180686fa2f40a3c0f94804ef7dd6ca88ce4ccd47932dc59afca571884

def exampleEntrySig : List UInt8 :=
  ecdsaSignature (octets 32 0x5db5c5805b041ddaeb9a424230416b13c49f9054407a0e0dffc05bad0e4b79fb)
    (0 :: octets 32 0x88c49c3aeef15b187ac97defaf7a4e902b541196ddc6f80e254f5fa64dc353f9)

def exampleBody : List UInt8 :=
  utf8Bytes "\x7b\"apiVersion\":\"0.0.2\",\"kind\":\"hashedrekord\",\"spec\":" ++
    utf8Bytes "\x7b\"hashedRekordV002\":\x7b\"data\":\x7b\"algorithm\":\"SHA2_256\"," ++
    utf8Bytes "\"digest\":\"" ++ utf8Bytes (base64Text examplePaeDigest.bytes) ++
    utf8Bytes "\"\x7d,\"signature\":\x7b\"content\":\"" ++
    utf8Bytes (base64Text exampleEntrySig) ++ utf8Bytes "\",\"verifier\":\x7b\"keyDetails\":" ++
    utf8Bytes "\"PKIX_ECDSA_P256_SHA_256\",\"x509Certificate\":\x7b\"rawBytes\":\"" ++
    utf8Bytes (base64Text exampleCertificateDer) ++ utf8Bytes "\"\x7d\x7d\x7d\x7d\x7d\x7d"

def exampleBodyJson : Json :=
  .object
    [("apiVersion", .string "0.0.2"), ("kind", .string "hashedrekord"),
      ("spec", .object [("hashedRekordV002", .object
        [("data", .object
            [("algorithm", .string "SHA2_256"),
              ("digest", .string (base64Text examplePaeDigest.bytes))]),
          ("signature", .object
            [("content", .string (base64Text exampleEntrySig)),
              ("verifier", .object
                [("keyDetails", .string "PKIX_ECDSA_P256_SHA_256"),
                  ("x509Certificate", .object
                    [("rawBytes", .string (base64Text exampleCertificateDer))])])])])])]

def exampleLeaf : Hash :=
  .ofNat 0xa66f371ea717eba387b2e64aab6018b58b19b695896b1701e3dbf455f6413c13

def exampleLogPoint : List UInt8 :=
  octets 32 0xeba329196d9485277c4e10d1cb834e5f258c327b9341fa774cc8388687459945

def exampleHintDigest : Hash :=
  .ofNat 0x9156cb46d0b0561f278df500922684046b53771cac020f4c55c5672a97a81062

def exampleLogKey : LogKey where
  id := .ofNat 0x342abba87f7fbc38d1b8e8d98f2d51f9f39279e7daaaf0afd6e8f70ea327aba1
  key := ⟨.ed25519, exampleLogPoint⟩
  origin := some "log.example"

def exampleLogSig : List UInt8 :=
  octets 32 0x4765238fc47eb46bda3de828d76c31a563e3108056a0493b0a3a3a65a1c307e5 ++
    octets 32 0xaa84728405a3fa9acc59920c3e157819bc3364d02089e2a25c39337da5101e0e

/-- The lines that the log signed, up to their last end. -/
def exampleNote : List Char :=
  "log.example\n1\n".toList ++ base64Padded exampleLeaf.bytes

def exampleNoteSig : List UInt8 :=
  exampleHintDigest.bytes.take 4 ++ exampleLogSig

def exampleNoteLine : List Char :=
  "— log.example ".toList ++ base64Padded exampleNoteSig

def exampleCheckpoint : List Char :=
  exampleNote ++ "\n\n".toList ++ exampleNoteLine ++ ['\n']

/-- The libraries on the bytes of the example. -/
def exampleLibrary : Library where
  toNameText := exampleDnssec.toNameText
  recordAt := exampleDnssec.recordAt
  recordAt_advances := exampleDnssec.recordAt_advances
  calculateKeyTag := exampleDnssec.calculateKeyTag
  verifyRrsig := exampleDnssec.verifyRrsig
  sha256 input :=
    if input = dsInput exampleName exampleZoneKey.rdata then exampleDigest
    else if input = exampleZoneKey.rdata then exampleKeyDigest
    else if input = pae dssePayloadType exampleStatement then examplePaeDigest
    else if input = 0x00 :: exampleBody then exampleLeaf
    else if input = utf8Bytes "log.example\n" ++ 0x01 :: exampleLogPoint then
      exampleHintDigest
    else .ofNat 0
  sha384 := exampleDnssec.sha384
  fromSlice bytes :=
    if bytes = exampleBody then .ok exampleBodyJson
    else if bytes = exampleStatement then .ok exampleStatementJson
    else .error "no such document"
  base64 text := base64Bytes text.toList
  verifies algorithm key message signature :=
    [(SignatureAlgorithm.ed25519, exampleLogPoint, utf8Bytes (String.ofList (exampleNote ++ ['\n'])),
        exampleLogSig),
      (.ecdsaP256Sha256Asn1, 0x04 :: examplePoint, pae dssePayloadType exampleStatement,
        exampleEntrySig)].contains (algorithm, key, message, signature)

def exampleProof : RekorProof where
  logId := exampleLogKey.id
  logIndex := 0
  statement := exampleStatement
  canonicalizedBody := exampleBody
  checkpoint := utf8Bytes (String.ofList exampleCheckpoint)
  inclusionPath := []

def exampleZone : ZoneKey where
  domain := "example"
  signingZone := "example."
  keyTag := 2045
  dnskeyRdata := exampleZoneKey.rdata

def exampleVerified : VerifiedRecord where
  logIndex := 0
  treeSize := 1
  origin := "log.example"
  action := "create"

/-! The steps of the verification. -/

theorem base64Decode_text (bytes : List UInt8) :
    base64Decode exampleLibrary (base64Text bytes) = some bytes := by
  have hkept : ∀ c ∈ base64Digits bytes, (!isWhiteSpace c && decide (c ≠ '=')) = true :=
    forall_digits (by decide +kernel) bytes
  have hpadding : ∀ n, (List.replicate n '=').filter
      (fun c => !isWhiteSpace c && decide (c ≠ '=')) = [] := by
    intro n
    rw [filter_replicate_of_neg (by decide)]
  simp only [base64Decode, base64Text, base64Padded, String.toList_ofList, filter_append,
    filter_eq_self.mpr hkept, hpadding, append_nil, exampleLibrary, base64Bytes_digits]

def exampleParsedCheckpoint : Checkpoint where
  origin := "log.example"
  treeSize := 1
  rootHash := exampleLeaf
  signed := utf8Bytes (String.ofList (exampleNote ++ ['\n']))
  signatures := [⟨"log.example", exampleHintDigest.bytes.take 4, exampleLogSig⟩]

theorem exampleCheckpoint_signed :
    Checkpoint.parse exampleLibrary (utf8Bytes (String.ofList exampleCheckpoint)) =
        .ok exampleParsedCheckpoint ∧
      exampleParsedCheckpoint.verifySignature exampleLibrary exampleLogKey = .ok () := by
  have hname : String.ofList "log.example".toList = "log.example" := String.ofList_toList
  have hline : parseNoteSignature exampleLibrary exampleNoteLine =
      .ok ⟨"log.example", exampleHintDigest.bytes.take 4, exampleLogSig⟩ := by
    have hdash : exampleNoteLine.dropPrefix? "— ".toList =
        some ("log.example ".toList ++ base64Padded exampleNoteSig) := by
      decide +kernel
    have hspace : splitOnceSpace ("log.example ".toList ++ base64Padded exampleNoteSig) =
        some ("log.example".toList, base64Padded exampleNoteSig) := by
      decide +kernel
    have hlong : ¬exampleNoteSig.length ≤ 4 := by decide +kernel
    have hhint : exampleNoteSig.take 4 = exampleHintDigest.bytes.take 4 := by decide +kernel
    have hsig : exampleNoteSig.drop 4 = exampleLogSig := by decide +kernel
    simp only [parseNoteSignature, bind_eq_ok_iff, orRefuse_eq_ok_iff, refuseIf_eq_ok_iff]
    refine ⟨_, hdash, _, hspace, _, base64Decode_text exampleNoteSig, (), hlong, ?_⟩
    rw [hhint, hsig, hname]
    rfl
  have hsplit : splitLastBlank (String.ofList exampleCheckpoint).toList =
      some (exampleNote, exampleNoteLine ++ ['\n']) := by
    rw [String.toList_ofList]
    decide +kernel
  have hlines : textLines (exampleNote ++ ['\n']) =
      ["log.example".toList, ['1'], base64Padded exampleLeaf.bytes] := by
    decide +kernel
  have hafter : (textLines (exampleNoteLine ++ ['\n'])).filter (· ≠ []) = [exampleNoteLine] := by
    decide +kernel
  have hhash : hashOfBytes? exampleLeaf.bytes = some exampleLeaf := by decide +kernel
  have hmap : [exampleNoteLine].mapM (parseNoteSignature exampleLibrary) =
      .ok [⟨"log.example", exampleHintDigest.bytes.take 4, exampleLogSig⟩] := by
    rw [mapM_cons, hline]
    rfl
  refine ⟨?_, by decide +kernel⟩
  simp only [Checkpoint.parse, bind_eq_ok_iff, orRefuse_eq_ok_iff, refuseIf_eq_ok_iff]
  refine ⟨_, textOf_utf8Bytes _, _, hsplit, ?_⟩
  simp only [hlines, hafter, hmap]
  refine ⟨_, getElem?_cons_zero, ['1'], rfl, 1, by decide, base64Padded exampleLeaf.bytes, rfl,
    _, base64Decode_text exampleLeaf.bytes, exampleLeaf, hhash, _, rfl, (), cons_ne_nil _ _,
    ?_⟩
  rw [hname]
  rfl

/-- The inputs of the digests start with different bytes. -/
theorem exampleLibrary_sha256 :
    exampleLibrary.sha256 (pae dssePayloadType exampleStatement) = examplePaeDigest ∧
      leafHash exampleLibrary.sha256 exampleBody = exampleLeaf := by
  have hds : (dsInput exampleName exampleZoneKey.rdata).head? = some 7 := by decide +kernel
  have hkey : exampleZoneKey.rdata.head? = some 1 := by decide +kernel
  have hpae : (pae dssePayloadType exampleStatement).head? = some 0x44 := by decide +kernel
  have hne : ∀ {a b : List UInt8}, a.head? ≠ b.head? → a ≠ b := fun h hab => h (congrArg _ hab)
  constructor
  · simp only [exampleLibrary]
    rw [if_neg (hne (by rw [hds, hpae]; decide)), if_neg (hne (by rw [hkey, hpae]; decide)),
      if_pos trivial]
  · simp only [leafHash, exampleLibrary]
    rw [if_neg (hne (by rw [hds, head?_cons]; decide)),
      if_neg (hne (by rw [hkey, head?_cons]; decide)),
      if_neg (hne (by rw [hpae, head?_cons]; decide)), if_pos trivial]

def exampleParsedBody : HashedRekordBody where
  digest := examplePaeDigest.bytes
  signature := exampleEntrySig
  certificate :=
    { spki := p256SpkiPrelude ++ examplePoint
      dnsNames := ["example"]
      extensions :=
        [⟨oidSubjectAltName, false, tlv 0x30 (tlv 0x82 (utf8Bytes "example"))⟩,
          ⟨oidDnssecChain, false, exampleChain.encode⟩] }
  certificateDer := exampleCertificateDer

theorem exampleBody_authorized :
    HashedRekordBody.parse exampleLibrary exampleBody = .ok exampleParsedBody ∧
      authorize exampleLibrary.toDnssec exampleParsedBody.certificate exampleAnchors =
        .ok exampleAuthorized := by
  have hjson : exampleLibrary.fromSlice exampleBody = .ok exampleBodyJson := by
    simp only [exampleLibrary, if_true]
  have hcertificate : Certificate.parse exampleCertificateDer =
      .ok exampleParsedBody.certificate := by
    decide +kernel
  refine ⟨?_, by decide +kernel⟩
  simp only [HashedRekordBody.parse, bytesMember, textMember, bind_eq_ok_iff, orRefuse_eq_ok_iff,
    reword_eq_ok_iff, refuseIf_eq_ok_iff]
  refine ⟨_, hjson, _, rfl, _, rfl, (), by decide, (), by decide, _, rfl, (), by decide, _, rfl, (),
    by decide, (), ?_, _, ⟨_, rfl, base64Decode_text exampleCertificateDer⟩, _,
    hcertificate, _, ⟨_, rfl, base64Decode_text examplePaeDigest.bytes⟩, _,
    ⟨_, rfl, base64Decode_text exampleEntrySig⟩, rfl⟩
  exact Option.some_ne_none _

def exampleParsedStatement : ZoneKeyStatement where
  apex := "example."
  keys := [⟨2045, 15, 257, exampleKeyDigest.toHex⟩]
  action := "create"

theorem exampleStatement_binds :
    ZoneKeyStatement.parse exampleLibrary exampleStatement = .ok exampleParsedStatement ∧
      exampleParsedStatement.checkBinds exampleLibrary exampleName exampleZone
        exampleAuthorized.provenKeys = .ok () := by
  have hother : exampleStatement ≠ exampleBody := by
    intro h
    exact absurd (congrArg (fun bytes => bytes[2]?) h) (by decide +kernel)
  have hjson : exampleLibrary.fromSlice exampleStatement = .ok exampleStatementJson := by
    simp only [exampleLibrary, if_neg hother, if_true]
  refine ⟨?_, by decide +kernel⟩
  simp only [ZoneKeyStatement.parse, hjson]
  decide +kernel

theorem verify_exampleProof :
    verify exampleLibrary exampleProof exampleZone ⟨[exampleLogKey]⟩ exampleAnchors =
      .ok exampleVerified := by
  have hfind : LogKeys.find ⟨[exampleLogKey]⟩ exampleLogKey.id = some exampleLogKey := by
    decide +kernel
  have hinclusion : verifyInclusion exampleLibrary.sha256 0 1
      (leafHash exampleLibrary.sha256 exampleBody) [] exampleLeaf = .ok () := by
    rw [exampleLibrary_sha256.2]
    decide +kernel
  have hapex : exampleParsedBody.certificate.singleDnsName exampleLibrary.toNameText =
      .ok exampleName := by
    decide +kernel
  have hdomain : parseName exampleLibrary.toNameText exampleZone.domain = .ok exampleName := by
    decide +kernel
  have hsigner : parseName exampleLibrary.toNameText exampleZone.signingZone = .ok exampleName := by
    decide +kernel
  have hpoint : p256Point exampleParsedBody.certificate.spki = some examplePoint := by
    decide +kernel
  have hentry : ¬exampleLibrary.verifies .ecdsaP256Sha256Asn1 (0x04 :: examplePoint)
      (pae dssePayloadType exampleStatement) exampleParsedBody.signature = false := by
    simp only [exampleLibrary, exampleParsedBody, contains_cons, beq_self_eq_true,
      Bool.true_or, Bool.or_true, Bool.true_eq_false, not_false_eq_true]
  have hdigest : exampleParsedBody.digest =
      (exampleLibrary.sha256 (pae dssePayloadType exampleStatement)).bytes := by
    rw [exampleLibrary_sha256.1, exampleParsedBody]
  simp only [verify, identify, exampleProof, bind_eq_ok_iff, orRefuse_eq_ok_iff,
    reword_eq_ok_iff, refuseIf_eq_ok_iff, not_not]
  exact ⟨_, hfind, _, exampleCheckpoint_signed.1, (), hinclusion, (),
    exampleCheckpoint_signed.2, _, exampleBody_authorized.1, _, hapex, _, hdomain, (), Name.ZoneOf.refl exampleName, _,
    exampleBody_authorized.2, _, hsigner, (), rfl, _, hpoint, (),
    refuseIf_eq_ok_iff.mpr hentry, (), refuseIf_eq_ok_iff.mpr (not_not.mpr hdigest), _,
    exampleStatement_binds.1, (), exampleStatement_binds.2, rfl⟩

theorem accepted_is_reported_example :
    verify exampleLibrary exampleProof exampleZone ⟨[exampleLogKey]⟩ exampleAnchors =
        .ok exampleVerified ∧
      ∃ finding, entryFinding exampleLibrary (.ofNames ["example."]) exampleAnchors 0 exampleBody =
          some finding ∧ finding.tier = .a ∧
        exampleKeyDigest.toHex ∈ finding.keys.map AuthorizedKey.sha256 := by
  refine ⟨verify_exampleProof, ?_⟩
  obtain ⟨_, _, finding, _, _, _, _, hfinding, htier, hkey⟩ :=
    accepted_is_reported exampleLibrary exampleProof exampleZone ⟨[exampleLogKey]⟩ exampleAnchors
      exampleVerified verify_exampleProof exampleName (by decide +kernel)
      (.ofNames ["example."]) (by decide +kernel) 0
  have hdigest : exampleLibrary.sha256 exampleZone.dnskeyRdata = exampleKeyDigest := by
    decide +kernel
  rw [hdigest] at hkey
  exact ⟨finding, hfinding, htier, hkey⟩

end Synch.Transparency
