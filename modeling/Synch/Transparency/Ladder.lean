import Synch.Transparency.Chain

/-!
# What an accepted chain proves

The keys an accepted certificate is granted belong to the lowest zone of a
delegation ladder: from a key set that a trusted key signed, each zone vouches
for the keys of the next one, and the last one's keys signed the declaration.
-/

namespace Synch.Transparency

open List Synch.Support

/-! ## Delegation -/

/-- A zone key that is not revoked. -/
def Dnskey.Usable (key : Dnskey) : Prop :=
  key.zoneKey = true ∧ key.revoke = false

theorem Dnskey.usable_iff {key : Dnskey} : key.usableSigner = true ↔ key.Usable := by
  simp [usableSigner, Usable]

section Ladder

variable (dns : Dnssec) (anchors : TrustAnchors)

/-- A signature over a link's record set of a type verifies under a usable key that
meets a condition. -/
def SignedBy (link : ParsedLink) (typeCovered : RecordType) (signer : Dnskey → Prop) : Prop :=
  ∃ rrset sigs, link.rrset typeCovered = some (rrset, sigs) ∧
    ∃ sig ∈ sigs, sig.typeCovered = typeCovered ∧
      ∃ key : Dnskey, key.Usable ∧ signer key ∧
        dns.verifyRrsig key link.zone .internet sig rrset = true

def ParsedLink.HasKey (link : ParsedLink) (key : Dnskey) : Prop :=
  ∃ record ∈ link.dnskeys, record.data = .dnskey key

/-- A ladder of zones, the lowest first: the top's key set is signed by a trusted key
in it, and each zone signs the delegation record of a key that signs the key set of
the zone below. -/
inductive Delegated : List ParsedLink → Prop
  | anchored {top : ParsedLink} (hkeys : SignedBy dns top .dnskey fun key =>
        top.HasKey key ∧ anchors.contains key = true) :
      Delegated [top]
  | delegated {link parent : ParsedLink} {above : List ParsedLink}
      (hparent : Delegated (parent :: above))
      (hzone : parent.zone.ProperZoneOf link.zone)
      (hds : SignedBy dns link .ds parent.HasKey)
      (hkeys : SignedBy dns link .dnskey fun key =>
        link.HasKey key ∧ covers dns link.ds link.zone key.rdata = true) :
      Delegated (link :: parent :: above)

/-- The declaration of a zone: it says so, no part of it comes from a wildcard, and
the zone it names as its signer has signed it. -/
structure Declared (declaration zone : ParsedLink) : Prop where
  text : ∃ record ∈ declaration.txt, declares record = true
  not_expanded : ∀ sig ∈ declaration.txtSigs, declaration.zone.labels.length ≤ sig.numLabels.toNat
  signer : ∀ sig ∈ declaration.txtSigs, sig.signerName.Same zone.zone
  signed : SignedBy dns declaration .txt zone.HasKey

variable {dns anchors}

variable {link : ParsedLink} {keys trusted : List Record} {done : Unit} {above : List ParsedLink}
    {apex : Name}

theorem SignedBy.mono {typeCovered : RecordType} {signer signer' : Dnskey → Prop}
    (h : SignedBy dns link typeCovered signer)
    (himp : ∀ key, key.Usable → signer key → signer' key) :
    SignedBy dns link typeCovered signer' := by
  obtain ⟨rrset, sigs, hset, sig, hsig, htype, key, husable, hsigner, hverifies⟩ := h
  exact ⟨rrset, sigs, hset, sig, hsig, htype, key, husable, himp key husable hsigner, hverifies⟩

theorem exists_key_of_trySig {typeCovered : RecordType} {rrset : List Record} {sig : Rrsig}
    {budget : Nat} (h : trySig dns link typeCovered rrset sig keys budget = .ok none) :
    ∃ record ∈ keys, ∃ key, record.data = .dnskey key ∧ key.Usable ∧
      dns.verifyRrsig key link.zone .internet sig rrset = true := by
  fun_induction trySig dns link typeCovered rrset sig keys budget with
  | case1 budget => simp at h
  | case2 record keys budget key hdata hskip ih =>
    obtain ⟨found, hfound, hkey⟩ := ih h
    exact ⟨found, mem_cons_of_mem _ hfound, hkey⟩
  | case3 record keys key hdata htry => simp at h
  | case4 record keys key hdata htry budget hverifies =>
    rw [not_or, Bool.not_eq_false] at htry
    exact ⟨record, mem_cons_self, key, hdata, Dnskey.usable_iff.mp htry.1, hverifies⟩
  | case5 record keys key hdata htry budget hverifies ih =>
    obtain ⟨found, hfound, hkey⟩ := ih h
    exact ⟨found, mem_cons_of_mem _ hfound, hkey⟩
  | case6 record keys budget hdata ih =>
    obtain ⟨found, hfound, hkey⟩ := ih h
    exact ⟨found, mem_cons_of_mem _ hfound, hkey⟩

theorem exists_sig_of_trySigs {typeCovered : RecordType} {rrset : List Record} {sigs : List Rrsig}
    {budget : Nat} (h : trySigs dns link typeCovered rrset keys sigs budget = .ok done) :
    ∃ sig ∈ sigs, sig.typeCovered = typeCovered ∧
      ∃ budget, trySig dns link typeCovered rrset sig keys budget = .ok none := by
  induction sigs generalizing budget with
  | nil => simp [trySigs] at h
  | cons sig sigs ih =>
    rw [trySigs] at h
    by_cases htype : sig.typeCovered = typeCovered
    · rw [if_neg (not_not.mpr htype), bind_eq_ok_iff] at h
      obtain ⟨left, htry, hrest⟩ := h
      cases left with
      | none => exact ⟨sig, mem_cons_self, htype, budget, htry⟩
      | some left =>
        obtain ⟨found, hfound, hsig⟩ := ih hrest
        exact ⟨found, mem_cons_of_mem _ hfound, hsig⟩
    · rw [if_pos htype] at h
      obtain ⟨found, hfound, hsig⟩ := ih h
      exact ⟨found, mem_cons_of_mem _ hfound, hsig⟩

theorem signedBy_of_verifyRrset {typeCovered : RecordType}
    (h : verifyRrset dns link typeCovered keys = .ok done) :
    SignedBy dns link typeCovered fun key => ∃ record ∈ keys, record.data = .dnskey key := by
  unfold verifyRrset at h
  cases hset : link.rrset typeCovered with
  | none => simp [hset] at h
  | some found =>
    obtain ⟨rrset, sigs⟩ := found
    rw [hset] at h
    obtain ⟨sig, hsig, htype, _, htry⟩ := exists_sig_of_trySigs h
    obtain ⟨record, hrecord, key, hdata, husable, hverifies⟩ := exists_key_of_trySig htry
    exact ⟨rrset, sigs, hset, sig, hsig, htype, key, husable, ⟨record, hrecord, hdata⟩, hverifies⟩

theorem anchored_of_verifyDnskeySet (h : verifyDnskeySet dns anchors link = .ok trusted) :
    trusted = link.dnskeys ∧ Delegated dns anchors [link] := by
  simp only [verifyDnskeySet, bind_eq_ok_iff, refuseIf_eq_ok_iff] at h
  obtain ⟨_, _, _, _, _, hsigned, hdone⟩ := h
  cases hdone
  refine ⟨rfl, .anchored ((signedBy_of_verifyRrset hsigned).mono ?_)⟩
  rintro key - ⟨record, hrecord, hdata⟩
  rw [mem_filter] at hrecord
  have hanchored := hrecord.2
  simp only [anchoredKey, hdata, Bool.and_eq_true] at hanchored
  exact ⟨⟨record, hrecord.1, hdata⟩, hanchored.2⟩

theorem delegated_of_descend {parent : ParsedLink}
    (hparent : Delegated dns anchors (parent :: above)) (hzone : parent.zone.ProperZoneOf link.zone)
    (h : descend dns parent.dnskeys link = .ok trusted) :
    trusted = link.dnskeys ∧ Delegated dns anchors (link :: parent :: above) := by
  simp only [descend, verifyDsSet, verifyDnskeySetUnder, bind_eq_ok_iff, refuseIf_eq_ok_iff] at h
  obtain ⟨ds, ⟨_, _, _, hds, hdsDone⟩, _, _, _, hkeys, hdone⟩ := h
  cases hdsDone
  cases hdone
  refine ⟨rfl, .delegated hparent hzone (signedBy_of_verifyRrset hds)
    ((signedBy_of_verifyRrset hkeys).mono ?_)⟩
  rintro key - ⟨record, hrecord, hdata⟩
  rw [mem_filter, Bool.and_eq_true] at hrecord
  have hcovered := hrecord.2.2
  simp only [rdataOf, hdata] at hcovered
  exact ⟨⟨record, hrecord.1, hdata⟩, hcovered⟩

/-- The keys the walk returns are the lowest zone's, and the zones are delegated. -/
theorem delegated_of_foldlM {bottom top : ParsedLink}
    (habove : ∀ pair ∈ (bottom :: above).zip above, pair.2.zone.ProperZoneOf pair.1.zone)
    (htop : (bottom :: above).getLast? = some top) (hanchored : Delegated dns anchors [top])
    (h : (bottom :: above).dropLast.reverse.foldlM (descend dns) top.dnskeys = .ok trusted) :
    trusted = bottom.dnskeys ∧ Delegated dns anchors (bottom :: above) := by
  -- the walk comes from the top, so the lowest link is its last step
  induction above generalizing bottom trusted with
  | nil =>
    cases htop
    cases h
    exact ⟨rfl, hanchored⟩
  | cons parent above ih =>
    rw [dropLast_cons_cons, reverse_cons, foldlM_append, bind_eq_ok_iff] at h
    obtain ⟨parentKeys, hwalk, hstep⟩ := h
    rw [foldlM_cons, bind_eq_ok_iff] at hstep
    obtain ⟨keys, hdescend, hdone⟩ := hstep
    cases hdone
    have hrest : ∀ pair ∈ (parent :: above).zip above, pair.2.zone.ProperZoneOf pair.1.zone := by
      intro pair hpair
      exact habove pair (mem_cons_of_mem _ hpair)
    rw [getLast?_cons_cons] at htop
    obtain ⟨rfl, hparent⟩ := ih hrest htop hwalk
    exact delegated_of_descend hparent (habove (bottom, parent) mem_cons_self) hdescend

theorem delegated_of_walkLadder {bottom : ParsedLink} {anchorZone : String}
    (h : walkLadder dns anchors (bottom :: above) = .ok (trusted, anchorZone)) :
    trusted = bottom.dnskeys ∧ Delegated dns anchors (bottom :: above) := by
  rw [walkLadder, bind_eq_ok_iff] at h
  obtain ⟨_, hpairs, hwalk⟩ := h
  have habove : ∀ pair ∈ (bottom :: above).zip above, pair.2.zone.ProperZoneOf pair.1.zone := by
    intro pair hpair
    have hcheck := forM_eq_ok_iff.mp hpairs pair hpair
    rw [checkAbove, refuseIf_eq_ok_iff, not_or, not_not] at hcheck
    exact ⟨hcheck.2, hcheck.1⟩
  cases hlast : (bottom :: above).getLast? with
  | none => simp at hlast
  | some top =>
    simp only [hlast, bind_eq_ok_iff] at hwalk
    obtain ⟨topKeys, htop, keys, hfold, hdone⟩ := hwalk
    cases hdone
    obtain ⟨rfl, hanchored⟩ := anchored_of_verifyDnskeySet htop
    exact delegated_of_foldlM habove hlast hanchored hfold

/-- The records of a link's sets are its zone's. -/
def ParsedLink.Owned (link : ParsedLink) : Prop :=
  ∀ record ∈ link.dnskeys ++ link.ds ++ link.txt,
    record.name.Same link.zone ∧ record.dnsClass = .internet

theorem ParsedLink.zone_add (link : ParsedLink) (record : Record) :
    (link.add record).zone = link.zone := by
  unfold add addSig
  split <;> first | rfl | (split <;> rfl)

theorem ParsedLink.Owned.add {record : Record} (h : link.Owned) (hname : record.name.Same link.zone)
    (hclass : record.dnsClass = .internet) : (link.add record).Owned := by
  have hmem : ∀ other ∈ (link.add record).dnskeys ++ (link.add record).ds ++
      (link.add record).txt, other = record ∨ other ∈ link.dnskeys ++ link.ds ++ link.txt := by
    unfold ParsedLink.add addSig
    split <;> (try split) <;> simp <;> tauto
  intro other hother
  rw [zone_add]
  obtain rfl | hold := hmem other hother
  · exact ⟨hname, hclass⟩
  · exact h other hold

theorem ParsedLink.owned_of_readRecords {source : ChainLink} {zone : Name} {start : Nat}
    {out : ParsedLink} (hzone : out.zone = zone) (hout : out.Owned)
    (h : readRecords dns source zone start out = .ok link) : link.zone = zone ∧ link.Owned := by
  fun_induction readRecords dns source zone start out with
  | case1 start out hmore why hread => simp at h
  | case2 start out hmore record after hread hadvance ih =>
    rw [bind_eq_ok_iff] at h
    obtain ⟨_, hcheck, hrest⟩ := h
    simp only [checkRecord, bind_eq_ok_iff, refuseIf_eq_ok_iff, not_not] at hcheck
    obtain ⟨_, hname, hclass⟩ := hcheck
    rw [← hzone] at hname
    exact ih ((out.zone_add record).trans hzone) (hout.add hname hclass) hrest
  | case3 start out hdone =>
    cases h
    exact ⟨hzone, hout⟩

theorem ParsedLink.owned_of_parse {source : ChainLink} (h : parse dns source = .ok link) :
    link.Owned := by
  rw [parse, bind_eq_ok_iff] at h
  obtain ⟨zone, _, hread⟩ := h
  have hempty : (empty zone).Owned := by simp [Owned, empty]
  exact (owned_of_readRecords rfl hempty hread).2

/-! ## Authorization -/

/-- A label in front of a canonically spelled name is read as the label in front of the
name. -/
def NameText.PutsInFront (names : NameText) (label : String) : Prop :=
  ∀ text name declared, names.fromUtf8 text = .ok name → name.labels ≠ [] →
    (text = trimEndDots (names.toText name.toLowercase) ∨ text = names.toText name.toLowercase) →
    names.fromUtf8 (label ++ "." ++ names.toText name.toLowercase) = .ok declared →
    declared.key = label.toByteArray.data.toList :: name.key

theorem singleDnsName_spelled {names : NameText} {certificate : Certificate}
    (h : certificate.singleDnsName names = .ok apex) :
    ∃ text name, names.fromUtf8 text = .ok name ∧ name.labels ≠ [] ∧
      (text = trimEndDots (names.toText name.toLowercase) ∨
        text = names.toText name.toLowercase) ∧ apex = name.toLowercase := by
  unfold Certificate.singleDnsName at h
  split at h
  next text _ =>
    simp only [bind_eq_ok_iff, reword_eq_ok_iff, refuseIf_eq_ok_iff] at h
    obtain ⟨name, hname, _, hroot, _, hspelled, hdone⟩ := h
    cases hdone
    rw [not_and_or, not_not, not_not] at hspelled
    exact ⟨text, name, hname, hroot, hspelled, rfl⟩
  next => simp at h

/-- The declaration of a certificate's apex lives under the label, one below it. -/
theorem key_transparencyName (hlabel : dns.PutsInFront transparencyLabel)
    {certificate : Certificate} {declaredAt : Name} (hapex : identify dns certificate = .ok apex)
    (h : transparencyName dns apex = .ok declaredAt) :
    declaredAt.key = transparencyLabel.toByteArray.data.toList :: apex.key := by
  rw [identify, reword_eq_ok_iff] at hapex
  obtain ⟨text, name, hname, hroot, hspelled, rfl⟩ := singleDnsName_spelled hapex
  simp only [transparencyName, parseName] at h
  split at h
  next => simp at h
  next declared hdeclared =>
    cases h
    rw [Name.key_toLowercase, Name.key_toLowercase]
    exact hlabel text name declared hname hroot hspelled hdeclared

/-- A name under the label is not a wildcard, so all its labels count. -/
theorem numLabels_of_key {name : Name} {rest : List Label}
    (h : name.key = transparencyLabel.toByteArray.data.toList :: rest) :
    name.numLabels = name.labels.length := by
  rw [Name.numLabels, if_neg]
  intro hstar
  obtain ⟨others, hlabels⟩ := head?_eq_some_iff.mp hstar
  rw [Name.key, hlabels, map_cons, cons.injEq] at h
  exact absurd h.1 (by decide +kernel)

theorem declared_of_verifyDeclaration {declaration zone : ParsedLink}
    (hlabels : declaration.zone.numLabels = declaration.zone.labels.length)
    (h : verifyDeclaration dns declaration zone.dnskeys zone.zone = .ok done) :
    Declared dns declaration zone := by
  simp only [verifyDeclaration, bind_eq_ok_iff, refuseIf_eq_ok_iff] at h
  obtain ⟨_, _, _, htext, _, hsigs, hsigned⟩ := h
  have hsig : ∀ sig ∈ declaration.txtSigs,
      declaration.zone.labels.length ≤ sig.numLabels.toNat ∧ sig.signerName.Same zone.zone := by
    intro sig hmem
    have hcheck := forM_eq_ok_iff.mp hsigs sig hmem
    simp only [checkDeclarationSig, bind_eq_ok_iff, refuseIf_eq_ok_iff, not_not, not_lt,
      hlabels] at hcheck
    obtain ⟨_, hcount, hsigner⟩ := hcheck
    rw [Name.Same, Name.key_toLowercase] at hsigner
    exact ⟨hcount, hsigner⟩
  rw [Bool.not_eq_false, any_eq_true] at htext
  exact
    { text := htext
      not_expanded := fun sig hmem => (hsig sig hmem).1
      signer := fun sig hmem => (hsig sig hmem).2
      signed := signedBy_of_verifyRrset hsigned }

theorem exists_key_of_recordIsUsableSigner {record : Record}
    (h : recordIsUsableSigner record = true) :
    ∃ key : Dnskey, record.data = .dnskey key ∧ key.Usable ∧ rdataOf record = key.rdata := by
  cases hdata : record.data <;> simp only [recordIsUsableSigner, hdata] at h
  case dnskey key => exact ⟨key, rfl, Dnskey.usable_iff.mp h, by rw [rdataOf, hdata]⟩
  all_goals simp at h

/-- The steps of a validation that succeeds. -/
theorem validateInner_cases {chain : DnssecChain} {signingZone : Name} {proven : List (List UInt8)}
    {valid : ValidChain}
    (h : validateInner dns chain apex anchors = .ok (proven, signingZone, valid)) :
    ∃ declaredAt declaration bottom above trusted anchorZone,
      transparencyName dns apex = .ok declaredAt ∧
      chain.links.mapM (ParsedLink.parse dns) = .ok (declaration :: bottom :: above) ∧
      declaration.zone.Same declaredAt ∧ bottom.zone.ZoneOf apex ∧
      walkLadder dns anchors (bottom :: above) = .ok (trusted, anchorZone) ∧
      verifyDeclaration dns declaration trusted bottom.zone = .ok () ∧
      proven = (trusted.filter recordIsUsableSigner).map rdataOf ∧ signingZone = bottom.zone := by
  simp only [validateInner, bind_eq_ok_iff] at h
  obtain ⟨_, _, declaredAt, hdeclaredAt, parsed, hparsed, hrest⟩ := h
  cases parsed with
  | nil => simp at hrest
  | cons declaration rest =>
    cases rest with
    | nil => simp at hrest
    | cons bottom above =>
      simp only [bind_eq_ok_iff, refuseIf_eq_ok_iff, not_not] at hrest
      obtain ⟨_, hfirst, _, hcontains, ⟨trusted, anchorZone⟩, hwalk, _, hdeclaration, _, _,
        hdone⟩ := hrest
      cases hdone
      exact ⟨declaredAt, declaration, bottom, above, trusted, anchorZone, hdeclaredAt, hparsed,
        hfirst, hcontains, hwalk, hdeclaration, rfl, rfl⟩

end Ladder

/-- The keys that an accepted certificate is granted are usable keys of the lowest zone
of a delegated ladder, which contains the owner of the declaration and signed it. -/
theorem authorize_sound
    (dns : Dnssec) (hlabel : dns.PutsInFront transparencyLabel)
    (certificate : Certificate) (anchors : TrustAnchors) (authorized : Authorized)
    (h : authorize dns certificate anchors = .ok authorized) :
    ∃ value chain declaration bottom above,
      certificate.extension oidDnssecChain = some value ∧
      DnssecChain.decode value = .ok chain ∧
      chain.links.mapM (ParsedLink.parse dns) = .ok (declaration :: bottom :: above) ∧
      (∀ link ∈ declaration :: bottom :: above, link.Owned) ∧
      Delegated dns anchors (bottom :: above) ∧
      bottom.zone = authorized.signingZone ∧
      declaration.zone.key = transparencyLabel.toByteArray.data.toList :: authorized.apex.key ∧
      authorized.signingZone.ZoneOf declaration.zone ∧
      Declared dns declaration bottom ∧
      ∀ rdata ∈ authorized.provenKeys,
        ∃ key : Dnskey, bottom.HasKey key ∧ key.Usable ∧ rdata = key.rdata := by
  simp only [authorize, bind_eq_ok_iff, orRefuse_eq_ok_iff, reword_eq_ok_iff] at h
  obtain ⟨apex, hapex, value, hvalue, chain, hchain, ⟨proven, signingZone, valid⟩, hinner,
    hdone⟩ := h
  cases hdone
  obtain ⟨declaredAt, declaration, bottom, above, trusted, _, hdeclaredAt, hparsed, hfirst,
    hcontains, hwalk, hdeclaration, rfl, rfl⟩ := validateInner_cases hinner
  obtain ⟨rfl, hdelegated⟩ := delegated_of_walkLadder hwalk
  have hkey : declaration.zone.key = transparencyLabel.toByteArray.data.toList :: apex.key :=
    hfirst.trans (key_transparencyName hlabel hapex hdeclaredAt)
  have howned : ∀ link ∈ declaration :: bottom :: above, link.Owned := by
    intro link hlink
    obtain ⟨_, _, hparse⟩ := exists_of_mem_mapM hparsed hlink
    exact ParsedLink.owned_of_parse hparse
  have hzone : bottom.zone.ZoneOf declaration.zone := by
    rw [Name.ZoneOf, hkey]
    exact List.IsSuffix.trans hcontains (suffix_cons _ _)
  refine ⟨value, chain, declaration, bottom, above, hvalue, hchain, hparsed, howned, hdelegated,
    rfl, hkey, hzone, declared_of_verifyDeclaration (numLabels_of_key hkey) hdeclaration, ?_⟩
  intro rdata hrdata
  obtain ⟨record, hrecord, rfl⟩ := mem_map.mp hrdata
  obtain ⟨hmem, husable⟩ := mem_filter.mp hrecord
  obtain ⟨key, hdata, hkeyUsable, hrdataOf⟩ := exists_key_of_recordIsUsableSigner husable
  exact ⟨key, ⟨record, hmem, hdata⟩, hkeyUsable, hrdataOf⟩

/-! ## A chain for one zone -/

/-- The bytes of a number, most significant first. -/
def octets (count n : Nat) : List UInt8 :=
  (List.range count).map fun i => UInt8.ofNat (n / 256 ^ (count - 1 - i))

def rootName : Name where
  labels := []
  label_length := by decide
  encoded_length := by decide

def exampleName : Name where
  labels := ["example".toByteArray.data.toList]
  label_length := by decide +kernel
  encoded_length := by decide +kernel

def declarationName : Name where
  labels := ["_synchronicity-transparency".toByteArray.data.toList,
    "example".toByteArray.data.toList]
  label_length := by decide +kernel
  encoded_length := by decide +kernel

def exampleRootKey : Dnskey where
  flags := 257
  algorithm := 15
  publicBytes := octets 32 0x7f42464b9c44cf7fc1acd4002dd87b0dcadff19962589d2e410a5f7578261916

def exampleZoneKey : Dnskey where
  flags := 257
  algorithm := 15
  publicBytes := octets 32 0x6aabd9ac8c42e6f2f06d78de15b1abdc1c4e592531294cff47a63956a1db0b11

def exampleDigest : Hash :=
  .ofNat 0xd6b25962494af5a5c560984269524e3756ab6e36ed06b3c15595f683425afabc

def exampleDs : Ds where
  keyTag := 2045
  algorithm := 15
  digestType := .sha256
  digest := exampleDigest.bytes

/-- A signature of the example, over the set of a type at a name. -/
def exampleSig (typeCovered : RecordType) (labels : UInt8) (keyTag : UInt16) (signer : Name)
    (r s : Nat) : Rrsig where
  typeCovered := typeCovered
  algorithm := 15
  numLabels := labels
  originalTtl := 3600
  sigExpiration := 1900000000
  sigInception := 1760000000
  keyTag := keyTag
  signerName := signer
  sig := octets 32 r ++ octets 32 s

def rootKeysSig : Rrsig :=
  exampleSig .dnskey 0 25010 rootName
    0x75d0cfb5bea1fa2fc73f50e2a4ea94df1169f32f38ea91fa9e84abe2eae6cf81
    0x5ce82ae8192d423cc30e60ec106908eb31eca518d903ba75c524b7c4fb03ab02

def exampleDsSig : Rrsig :=
  exampleSig .ds 1 25010 rootName
    0xf694dacb3663ce85147ebbd227636dff791db6e7ae699c59a2483d04df8850de
    0xe828e0e28c88a794243ffa86ea3039a3fe7a25cbe21b627519acb82ed16d9101

def exampleKeysSig : Rrsig :=
  exampleSig .dnskey 1 2045 exampleName
    0x2dccd59d31a2694b11cd6a60b78a5c551f4219b3e386a90c1abb1e3a4ac248d0
    0x80c441cdc5f9fd951d3dd4c74947bbfb1d5f6138032e237dd400305f004a4c03

def declarationSig : Rrsig :=
  exampleSig .txt 2 2045 exampleName
    0x8af1b3b29b00d679d21da00088da08dc43e1798d609334e4ff55a620df10ef7e
    0x97d999790807da455f9054eec4ced1afeb735dc0f3a40e5851acd510483d7901

def exampleRecord (name : Name) (data : RData) : Record where
  name := name
  dnsClass := .internet
  ttl := 3600
  data := data

def rootKeyRecord : Record := exampleRecord rootName (.dnskey exampleRootKey)

def exampleKeyRecord : Record := exampleRecord exampleName (.dnskey exampleZoneKey)

def exampleDsRecord : Record := exampleRecord exampleName (.ds exampleDs)

def declarationRecord : Record :=
  exampleRecord declarationName (.txt [transparencyText.toByteArray.data.toList])

def exampleRootRecords : List Record :=
  [rootKeyRecord, exampleRecord rootName (.rrsig rootKeysSig)]

def exampleZoneRecords : List Record :=
  [exampleKeyRecord, exampleRecord exampleName (.rrsig exampleKeysSig), exampleDsRecord,
    exampleRecord exampleName (.rrsig exampleDsSig)]

def declarationRecords : List Record :=
  [declarationRecord, exampleRecord declarationName (.rrsig declarationSig)]

/-! The wire format of those records. -/

def wireName (name : Name) : List UInt8 :=
  name.labels.flatMap (fun label => UInt8.ofNat label.length :: label) ++ [0]

def RecordType.code : RecordType → UInt16
  | .txt => 16
  | .dnskey => 48
  | .ds => 43
  | .other code => code

def wireData : RData → Nat × List UInt8
  | .dnskey key => (48, key.rdata)
  | .ds ds => (43, octets 2 ds.keyTag.toNat ++ [ds.algorithm, 2] ++ ds.digest)
  | .txt txtData => (16, txtData.flatMap fun text => UInt8.ofNat text.length :: text)
  | .rrsig sig => (46, octets 2 sig.typeCovered.code.toNat ++ [sig.algorithm, sig.numLabels] ++
      octets 4 sig.originalTtl.toNat ++ octets 4 sig.sigExpiration.toNat ++
      octets 4 sig.sigInception.toNat ++ octets 2 sig.keyTag.toNat ++
      wireName sig.signerName ++ sig.sig)
  | .other code bytes => (code.toNat, bytes)

def wireRecord (record : Record) : List UInt8 :=
  let (code, data) := wireData record.data
  wireName record.name ++ octets 2 code ++ [0, 1] ++ octets 4 record.ttl.toNat ++
    octets 2 data.length ++ data

theorem wireRecord_length_pos (record : Record) : 0 < (wireRecord record).length := by
  simp [wireRecord, wireName]

/-- The DNS library on the records and names of the example. -/
def exampleDnssec : Dnssec where
  fromUtf8 text :=
    if text = "." then .ok rootName
    else if text = "example" ∨ text = "example." then .ok exampleName
    else if text = "_synchronicity-transparency.example." then .ok declarationName
    else .error "no such name"
  toText name :=
    if name = rootName then "."
    else if name = exampleName then "example."
    else "_synchronicity-transparency.example."
  recordAt rrs start :=
    match (exampleRootRecords ++ exampleZoneRecords ++ declarationRecords).find? fun record =>
        (wireRecord record).isPrefixOf (rrs.drop start) with
    | some record => .ok (record, start + (wireRecord record).length)
    | none => .error "no such record"
  recordAt_advances := by
    intro rrs start record after h
    split at h
    next found _ =>
      cases h
      exact Nat.lt_add_of_pos_right (wireRecord_length_pos record)
    next => cases h
  calculateKeyTag key := some (keyTag key.rdata)
  verifyRrsig key zone _ sig rrset :=
    [(exampleRootKey, rootName, rootKeysSig, [rootKeyRecord]),
      (exampleRootKey, exampleName, exampleDsSig, [exampleDsRecord]),
      (exampleZoneKey, exampleName, exampleKeysSig, [exampleKeyRecord]),
      (exampleZoneKey, declarationName, declarationSig, [declarationRecord])].contains
      (key, zone, sig, rrset)
  sha256 input :=
    if input = dsInput exampleName exampleZoneKey.rdata then exampleDigest else .ofNat 0
  sha384 _ := []

def exampleChain : DnssecChain where
  links :=
    [⟨"_synchronicity-transparency.example.", declarationRecords.flatMap wireRecord⟩,
      ⟨"example.", exampleZoneRecords.flatMap wireRecord⟩,
      ⟨".", exampleRootRecords.flatMap wireRecord⟩]

def exampleCertificate : Certificate where
  spki := []
  dnsNames := ["example"]
  extensions := [⟨oidDnssecChain, false, exampleChain.encode⟩]

def exampleAnchors : TrustAnchors where
  keys := [(15, exampleRootKey.publicBytes)]

def exampleAuthorized : Authorized where
  apex := exampleName
  signingZone := exampleName
  provenKeys := [exampleZoneKey.rdata]
  chain := { anchorZone := ".", links := 2, anchoredDirectly := false }

theorem authorize_exampleCertificate :
    authorize exampleDnssec exampleCertificate exampleAnchors = .ok exampleAuthorized := by
  decide +kernel

theorem exampleDnssec_putsInFront : exampleDnssec.PutsInFront transparencyLabel := by
  intro text name declared hname hroot _ hdeclared
  have hcases : name = rootName ∨ name = exampleName ∨ name = declarationName := by
    simp only [exampleDnssec] at hname
    split_ifs at hname <;> cases hname <;> simp
  obtain rfl | rfl | rfl := hcases
  · exact absurd rfl hroot
  · have hread : exampleDnssec.fromUtf8
        (transparencyLabel ++ "." ++ exampleDnssec.toText exampleName.toLowercase) =
          .ok declarationName := by
      decide +kernel
    rw [hread] at hdeclared
    cases hdeclared
    decide +kernel
  · have hread : exampleDnssec.fromUtf8
        (transparencyLabel ++ "." ++ exampleDnssec.toText declarationName.toLowercase) =
          .error "no such name" := by
      decide +kernel
    rw [hread] at hdeclared
    cases hdeclared

theorem authorize_sound_example :
    authorize exampleDnssec exampleCertificate exampleAnchors = .ok exampleAuthorized ∧
      ∃ declaration bottom above,
        Delegated exampleDnssec exampleAnchors (bottom :: above) ∧ bottom.zone = exampleName ∧
          Declared exampleDnssec declaration bottom := by
  refine ⟨authorize_exampleCertificate, ?_⟩
  obtain ⟨_, _, declaration, bottom, above, _, _, _, _, hdelegated, hzone, _, _, hdeclared, _⟩ :=
    authorize_sound exampleDnssec exampleDnssec_putsInFront exampleCertificate exampleAnchors
      exampleAuthorized authorize_exampleCertificate
  exact ⟨declaration, bottom, above, hdelegated, hzone, hdeclared⟩

end Synch.Transparency
