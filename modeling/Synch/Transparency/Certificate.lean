import Synch.Support.Wire
import Synch.Transparency.Der
import Synch.Transparency.Names

/-!
# The certificate of a log entry

The certificate is an envelope: it carries the signer's key, the apex as its one
DNS name, and the DNSSEC chain as an extension.  Nothing checks its signature.
-/

namespace Synch.Transparency

open Synch.Support

/-- The DER contents of the object identifiers that are read. -/
def oidSubjectAltName : List UInt8 := [0x55, 0x1d, 0x11]

def oidDnssecChain : List UInt8 := [0x69, 0x85, 0xe5, 0xe9, 0xb2, 0x07]

/-- One extension, as it sits in the certificate. -/
structure Extension where
  oid : List UInt8
  critical : Bool
  value : List UInt8
deriving DecidableEq, Repr

/-- The parts of a certificate that are read. -/
structure Certificate where
  spki : List UInt8
  dnsNames : List String
  extensions : List Extension
deriving DecidableEq, Repr

/-! ## Parsing -/

variable (element : UInt8 × List UInt8)

/-- A general name: its text if it is a DNS name, otherwise nothing. -/
def parseGeneralName : Except X509Error (Option String) :=
  if element.1 = 0x82 then do
    let name ← orRefuse (textOf element.2) ⟨"a dNSName is not UTF-8"⟩
    return some name
  else
    .ok none

/-- The DNS names of a subject alternative name. -/
def parseSan (value : List UInt8) : Except X509Error (List String) := do
  let list ← Der.onlySequence "the subjectAltName sequence" value
  let names ← Der.elements "GeneralName" parseGeneralName list
  return names.filterMap id

def parseExtension : Except X509Error Extension := do
  let ext ← Der.contents 0x30 "Extension" element
  let (oid, ext) ← Der.tagged 0x06 "extnID" ext
  let (critical, ext) := Der.optional 0x01 ext
  let (value, ext) ← Der.tagged 0x04 "extnValue" ext
  Der.finish "an extension's extnValue" ext
  return { oid, critical := (critical.bind List.head?).any (· ≠ 0), value }

/-- The extensions of a certificate, which may have none. -/
def parseExtensions : Option (List UInt8) → Except X509Error (List Extension)
  | none => .ok []
  | some bytes => do
    let list ← Der.onlySequence "the Extensions sequence" bytes
    Der.elements "Extension" parseExtension list

/-- The names of the one subject alternative name, if there is one. -/
def sanNames (extensions : List Extension) : Except X509Error (List String) :=
  match extensions.filter (·.oid = oidSubjectAltName) with
  | [] => .ok []
  | [san] => parseSan san.value
  | _ :: _ :: _ =>
    .error ⟨"the certificate carries more than one subjectAltName extension"⟩

def Certificate.parse (der : List UInt8) : Except X509Error Certificate := do
  let (outer, whole) ← Der.sequence "Certificate" der
  refuseIf (whole ≠ []) ⟨"bytes after the certificate"⟩
  let (tbs, outer) ← Der.sequence "tbsCertificate" outer
  let (_, tbs) := Der.optional 0xa0 tbs
  let (_, tbs) ← Der.any "serialNumber" tbs
  let (_, tbs) ← Der.sequence "signature" tbs
  let (_, tbs) ← Der.any "issuer" tbs
  let (_, tbs) ← Der.any "validity" tbs
  let (_, tbs) ← Der.any "subject" tbs
  let (spki, tbs) ← Der.rawSequence "subjectPublicKeyInfo" tbs
  -- the unique identifiers are optional and unused
  let (_, tbs) := Der.optional 0x81 tbs
  let (_, tbs) := Der.optional 0x82 tbs
  let (block, tbs) := Der.optional 0xa3 tbs
  let extensions ← parseExtensions block
  Der.finish "the tbsCertificate" tbs
  let dnsNames ← sanNames extensions
  let (_, outer) ← Der.sequence "signatureAlgorithm" outer
  let (_, outer) ← Der.any "signatureValue" outer
  Der.finish "the certificate" outer
  return { spki, dnsNames, extensions }

/-- The value of the extension with an identifier, if there is exactly one. -/
def Certificate.extension (certificate : Certificate) (oid : List UInt8) : Option (List UInt8) :=
  match certificate.extensions.filter (·.oid = oid) with
  | [only] => some only.value
  | _ => none

def trimEndDots (text : String) : String :=
  String.ofList (text.toList.reverse.dropWhile (· = '.')).reverse

/-- The one DNS name of the certificate, parsed, if it is spelled canonically. -/
def Certificate.singleDnsName (names : NameText) (certificate : Certificate) :
    Except X509Error Name :=
  match certificate.dnsNames with
  | [text] => do
    let quoted := text.quote
    let name ← reword (fun why => ⟨s!"the dNSName SAN {quoted} is not a name: {why}"⟩)
      (names.fromUtf8 text)
    refuseIf (name.labels = [])
      ⟨"the dNSName SAN is the DNS root, which is not a zone this design logs"⟩
    let name := name.toLowercase
    let canonical := names.toText name
    let spelled := (trimEndDots canonical).quote
    refuseIf (text ≠ trimEndDots canonical ∧ text ≠ canonical)
      ⟨s!"the dNSName SAN is spelled {quoted}, not {spelled} — a log entry has to " ++
        "carry its apex the way a reader indexing the log would search for it"⟩
    return name
  | found =>
    let count := found.length
    .error ⟨s!"a zone-key certificate carries exactly one dNSName SAN, not {count}"⟩

/-! ## The chain extension -/

/-- One zone's part of the chain: the wire-format records it owns. -/
structure ChainLink where
  zone : String
  rrs : List UInt8
deriving DecidableEq, Repr

/-- The links, upward from the declaration below the apex. -/
structure DnssecChain where
  links : List ChainLink
deriving DecidableEq, Repr

/-- The extension value, as the publisher writes it. -/
def DnssecChain.encode (chain : DnssecChain) : List UInt8 :=
  tlv 0x30 (chain.links.flatMap fun link =>
    tlv 0x30 (tlv 0x16 link.zone.toByteArray.data.toList ++ tlv 0x04 link.rrs))

def parseChainLink : Except X509Error ChainLink := do
  let link ← Der.contents 0x30 "Link" element
  let (bytes, link) ← Der.tagged 0x16 "Link.zone" link
  refuseIf (bytes.any (0x80 ≤ ·)) ⟨"Link.zone is not ASCII"⟩
  let zone ← orRefuse (textOf bytes) ⟨"Link.zone is not ASCII"⟩
  let (rrs, link) ← Der.tagged 0x04 "Link.rrs" link
  refuseIf (link ≠ []) ⟨"Link: unexpected trailing member"⟩
  return { zone, rrs }

def DnssecChain.decode (bytes : List UInt8) : Except X509Error DnssecChain := do
  let (list, outer) ← Der.sequence "DnssecChain" bytes
  refuseIf (outer ≠ []) ⟨"DnssecChain: bytes after the sequence"⟩
  let links ← Der.elements "Link" parseChainLink list
  return { links }

end Synch.Transparency
