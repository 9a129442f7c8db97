import Synch.Membership.Isolation
import Synch.Zone.Build

/-!
# Published membership is readable

What the control plane's validation lets through is written so that the client
reads back what was written.  Labels, keys and hints hold no blank, and one key has
one spelling, so that no key of a network is ambiguous.
-/

namespace Synch.Zone

open List Synch.Membership Synch.Support
open Synch.Records (utf8)
open Synch.Transparency (isWhiteSpace)

variable {lib : KeyLib}

/-! ## Printable characters -/

/-- A printable ASCII character other than the blank. -/
def Printable (c : Char) : Prop :=
  0x21 ≤ c.toNat ∧ c.toNat ≤ 0x7e

instance (c : Char) : Decidable (Printable c) :=
  inferInstanceAs (Decidable (0x21 ≤ c.toNat ∧ c.toNat ≤ 0x7e))

theorem printable_of_all {chars : List Char}
    (h : (chars.all fun c => decide (Printable c)) = true) :
    ∀ c ∈ chars, Printable c := by
  simpa using h

variable {c : Char} {label : String} {member : Member} {fields : Fields lib}

theorem Printable.isWhiteSpace_eq_false (h : Printable c) : isWhiteSpace c = false := by
  obtain ⟨hlow, hhigh⟩ := h
  simp only [isWhiteSpace, Bool.or_eq_false_iff, Bool.and_eq_false_iff, decide_eq_false_iff_not,
    beq_eq_false_iff_ne]
  omega

theorem isWord_of_printable {word : List Char} (hne : word ≠ []) (h : ∀ c ∈ word, Printable c) :
    IsWord isWhiteSpace word :=
  ⟨hne, fun c hc => (h c hc).isWhiteSpace_eq_false⟩

theorem memberChar_iff :
    memberChar c = true ↔
      (97 ≤ c.toNat ∧ c.toNat ≤ 122) ∨ (48 ≤ c.toNat ∧ c.toNat ≤ 57) ∨ c.toNat = 45 := by
  simp only [memberChar, Bool.or_eq_true, Bool.and_eq_true, decide_eq_true_eq, beq_iff_eq,
    Char.le_def, UInt32.le_iff_toNat_le, or_assoc]
  exact or_congr_right (or_congr_right Char.toNat_inj.symm)

theorem plainByte_iff {byte : UInt8} :
    plainByte byte = true ↔
      (97 ≤ byte.toNat ∧ byte.toNat ≤ 122) ∨ (48 ≤ byte.toNat ∧ byte.toNat ≤ 57) ∨
        byte.toNat = 45 := by
  simp only [plainByte, Bool.or_eq_true, Bool.and_eq_true, decide_eq_true_eq, beq_iff_eq,
    UInt8.le_iff_toNat_le, or_assoc]
  exact or_congr_right (or_congr_right UInt8.toNat_inj.symm)

theorem printable_of_memberChar (h : memberChar c = true) : Printable c := by
  have hrange := memberChar_iff.mp h
  unfold Printable
  omega

theorem toLower_eq_self (h : ¬(65 ≤ c.toNat ∧ c.toNat ≤ 90)) : c.toLower = c := by
  refine dif_neg ?_
  simp only [ge_iff_le, UInt32.le_iff_toNat_le]
  exact h

/-- The bytes of a device label are its characters. -/
theorem memberChar_of_validDeviceLabel (h : validDeviceLabel (utf8 label) = true) :
    ∀ c ∈ label.toList, memberChar c = true := by
  intro c hc
  simp only [validDeviceLabel, Bool.and_eq_true, all_eq_true] at h
  have hbytes : ∀ byte ∈ String.utf8EncodeChar c, plainByte byte = true := by
    intro byte hbyte
    apply h.2
    rw [utf8, toList_toByteArray]
    exact mem_flatMap.mpr ⟨c, hc, hbyte⟩
  by_cases hascii : c.toNat ≤ 127
  · rw [encodeChar_of_ascii hascii] at hbytes
    have hplain := plainByte_iff.mp (hbytes _ mem_cons_self)
    rw [toNat_ofNat_of_lt (by omega)] at hplain
    exact memberChar_iff.mpr hplain
  · obtain ⟨byte, rest, hcons⟩ := exists_cons_of_ne_nil (encodeChar_ne_nil c)
    have hmem : byte ∈ String.utf8EncodeChar c := hcons ▸ mem_cons_self
    have hhigh := le_of_mem_encodeChar hascii hmem
    have hplain := plainByte_iff.mp (hbytes byte hmem)
    omega

theorem lower_eq_self {s : String} (h : ∀ c ∈ s.toList, c.toLower = c) : lower s = s := by
  have hmap : s.toList.map Char.toLower = s.toList :=
    (map_congr_left h).trans (List.map_id _)
  rw [lower, hmap, String.ofList_toList]

theorem normalizeLabel_of_validDeviceLabel (h : validDeviceLabel (utf8 label) = true) :
    normalizeLabel label = .ok label := by
  have hchars := memberChar_of_validDeviceLabel h
  have hlower : lower label = label := lower_eq_self fun c hc => by
    have hrange := memberChar_iff.mp (hchars c hc)
    exact toLower_eq_self (by omega)
  simp only [validDeviceLabel, Bool.and_eq_true, decide_eq_true_eq] at h
  have hsize : (utf8 label).length = label.utf8ByteSize := length_toByteArray label
  rw [hsize] at h
  refine normalizeLabel_eq_ok_iff.mpr ⟨hlower, ?_⟩
  simp only [labelValid, Bool.and_eq_true, Bool.not_eq_true', decide_eq_true_eq, all_eq_true]
  refine ⟨⟨?_, h.1.2⟩, hchars⟩
  by_contra hempty
  have hnil : label = "" := by simpa using hempty
  simp [hnil] at h

theorem mem_toText {name : Name} {byte : UInt8} (h : byte ∈ toText name) :
    byte = dot ∨ ∃ label ∈ name, byte ∈ label := by
  rw [toText_eq_terminated, terminated, mem_flatMap] at h
  obtain ⟨label, hlabel, hbyte⟩ := h
  obtain hbyte | hbyte := mem_append.mp hbyte
  · right
    unfold spelled at hlabel
    split at hlabel
    · rw [mem_singleton.mp hlabel] at hbyte
      cases hbyte
    · exact ⟨label, hlabel, hbyte⟩
  · exact .inl (mem_singleton.mp hbyte)

/-- The apex as a record names it. -/
def apexText (apex : ZoneName) : String :=
  stripDot (asciiText (toText apex.labels))

/-- The characters of the apex are printable, and no letter among them is large. -/
theorem apexText_chars (apex : ZoneName) :
    ∀ c ∈ (apexText apex).toList, Printable c ∧ ¬(65 ≤ c.toNat ∧ c.toNat ≤ 90) := by
  have hall : ∀ c ∈ (asciiText (toText apex.labels)).toList,
      Printable c ∧ ¬(65 ≤ c.toNat ∧ c.toNat ≤ 90) := by
    intro c hc
    rw [asciiText, String.toList_ofList] at hc
    obtain ⟨byte, hbyte, rfl⟩ := mem_map.mp hc
    have hrange : (97 ≤ byte.toNat ∧ byte.toNat ≤ 122) ∨ (48 ≤ byte.toNat ∧ byte.toNat ≤ 57) ∨
        byte.toNat = 45 ∨ byte.toNat = 95 ∨ byte.toNat = 46 := by
      obtain rfl | ⟨label, hlabel, hbyte⟩ := mem_toText hbyte
      · exact .inr (.inr (.inr (.inr rfl)))
      · have hvalid := apex.valid_labels label hlabel
        simp only [validLabel, Bool.and_eq_true, all_eq_true, Bool.or_eq_true, beq_iff_eq] at hvalid
        obtain hplain | rfl := hvalid.2 byte hbyte
        · have hplain := plainByte_iff.mp hplain
          omega
        · exact .inr (.inr (.inr (.inl rfl)))
    have hnat : (Char.ofNat byte.toNat).toNat = byte.toNat := toNat_ofNat_of_ascii (by omega)
    unfold Printable
    rw [hnat]
    omega
  unfold apexText stripDot
  split
  · intro c hc
    rw [String.toList_ofList] at hc
    exact hall c (dropLast_subset _ hc)
  · exact hall

/-! ## One record -/

def field (name value : String) : List Char :=
  name.toList ++ '=' :: value.toList

/-- The fields of a member's record, after the version. -/
def fieldsOf (apex : ZoneName) (member : Member) : List (List Char) :=
  [field "id" member.label, field "nk" member.nkZ32, field "apex" (apexText apex)] ++
  (if member.relay = "" then [] else [field "relay" member.relay]) ++
  (if member.addr = "" then [] else [field "addr" member.addr])

theorem memberText_toList (apex : ZoneName) (member : Member) :
    (memberText apex member).toList =
      versionField ++ (fieldsOf apex member).flatMap fun field => ' ' :: field := by
  have hversion : versionField = "v=sync1".toList := rfl
  unfold memberText sync1Text fieldsOf apexText
  by_cases hrelay : member.relay = "" <;> by_cases haddr : member.addr = "" <;>
    simp [hrelay, haddr, hversion, field]

/-- What validation has found out about a member. -/
structure Validated (lib : KeyLib) (member : Member) : Prop where
  label : validDeviceLabel (utf8 member.label) = true
  nk : ∃ bytes, lib.decode member.nkZ32 = .ok bytes ∧ bytes.length = 32 ∧ member.nkZ32.length = 52
  relay : validHint member.relay = true
  addr : validHint member.addr = true

theorem validated_of_validateMember (h : validateMember lib member = .ok ()) :
    Validated lib member := by
  unfold validateMember at h
  split at h
  · cases h
  rename_i hlabel
  split at h
  · cases h
  rename_i bytes hnk
  split at h
  · cases h
  rename_i hrelay
  split at h
  · cases h
  rename_i haddr
  refine ⟨by simpa using hlabel, ?_, by simpa using hrelay, by simpa using haddr⟩
  unfold validateNk at hnk
  split at hnk
  · rename_i bytes' hdecode
    split_ifs at hnk with hsize
    exact ⟨bytes', hdecode, hsize⟩
  · cases hnk

theorem printable_of_validHint {hint : String} (h : validHint hint = true) :
    ∀ c ∈ hint.toList, Printable c := by
  intro c hc
  simp only [validHint, Bool.and_eq_true, all_eq_true, decide_eq_true_eq] at h
  exact (h.2 c hc).1

theorem printable_of_mem_alphabet (h : c ∈ alphabet) : Printable c :=
  printable_of_all (by decide) c h

theorem isWord_field {name value : String}
    (hname : (name.toList.all fun c => decide (Printable c)) = true)
    (hvalue : ∀ c ∈ value.toList, Printable c) : IsWord isWhiteSpace (field name value) := by
  apply isWord_of_printable
  · simp [field]
  · refine forall_mem_append.mpr ⟨printable_of_all hname, forall_mem_cons.mpr ⟨?_, hvalue⟩⟩
    decide

variable {apex : ZoneName}

theorem isWord_fields (hstrict : lib.Strict) (h : Validated lib member) :
    ∀ word ∈ fieldsOf apex member, IsWord isWhiteSpace word := by
  obtain ⟨bytes, hdecode, -⟩ := h.nk
  have hid : IsWord isWhiteSpace (field "id" member.label) :=
    isWord_field (by decide) fun c hc =>
      printable_of_memberChar (memberChar_of_validDeviceLabel h.label c hc)
  have hnk : IsWord isWhiteSpace (field "nk" member.nkZ32) :=
    isWord_field (by decide) fun c hc =>
      printable_of_mem_alphabet (hstrict.alphabet hdecode c hc)
  have hapex : IsWord isWhiteSpace (field "apex" (apexText apex)) :=
    isWord_field (by decide) fun c hc => (apexText_chars apex c hc).1
  have hrelay : IsWord isWhiteSpace (field "relay" member.relay) :=
    isWord_field (by decide) (printable_of_validHint h.relay)
  have haddr : IsWord isWhiteSpace (field "addr" member.addr) :=
    isWord_field (by decide) (printable_of_validHint h.addr)
  unfold fieldsOf
  refine forall_mem_append.mpr ⟨forall_mem_append.mpr ⟨by simp [hid, hnk, hapex], ?_⟩, ?_⟩
  · split
    · exact nofun
    · exact forall_mem_singleton.mpr hrelay
  · split
    · exact nofun
    · exact forall_mem_singleton.mpr haddr

/-- A hint as the client holds it. -/
def hintOf (hint : String) : Option String :=
  if hint = "" then none else some hint

theorem splitOnce_field {name : String} (hname : '=' ∉ name.toList) (value : String) :
    splitOnce '=' (field name value) = some (name.toList, value.toList) :=
  splitOnce_append_cons hname value.toList

theorem read_id (hnone : fields.id = none) (hlabel : normalizeLabel label = .ok label) :
    fields.read (field "id" label) = .ok { fields with id := some label } := by
  rw [Fields.read, splitOnce_field (by decide)]
  simp [hnone, hlabel, refuseIf, reword]
  rfl

theorem read_nk {nk : String} {key : NodeId lib} (hnone : fields.nodeKey = none)
    (hkey : NodeId.fromZ32 lib nk = .ok key) :
    fields.read (field "nk" nk) = .ok { fields with nodeKey := some key } := by
  rw [Fields.read, splitOnce_field (by decide)]
  simp [hnone, hkey, refuseIf, reword]
  rfl

theorem read_apex {apex : String} (hnone : fields.apex = none) (hlower : lower apex = apex) :
    fields.read (field "apex" apex) = .ok { fields with apex := some apex } := by
  rw [Fields.read, splitOnce_field (by decide)]
  simp [hnone, hlower, refuseIf]

/-- A hint is read if it was written, and it is written unless it is empty. -/
theorem read_relay (hnone : fields.relay = none) (relay : String) :
    (if relay = "" then [] else [field "relay" relay]).foldlM Fields.read fields =
      .ok { fields with relay := hintOf relay } := by
  unfold hintOf
  split_ifs
  · rw [← hnone]
    rfl
  · refine bind_eq_ok_iff.mpr ⟨_, ?_, rfl⟩
    rw [Fields.read, splitOnce_field (by decide)]
    simp

theorem read_addr (hnone : fields.addr = none) (addr : String) :
    (if addr = "" then [] else [field "addr" addr]).foldlM Fields.read fields =
      .ok { fields with addr := hintOf addr } := by
  unfold hintOf
  split_ifs
  · rw [← hnone]
    rfl
  · refine bind_eq_ok_iff.mpr ⟨_, ?_, rfl⟩
    rw [Fields.read, splitOnce_field (by decide)]
    simp

/-- The record a member's text stands for. -/
def recordOf (apex : ZoneName) (member : Member) (key : NodeId lib) : MemberRecord lib where
  id := some member.label
  nodeKey := key
  relay := hintOf member.relay
  addr := hintOf member.addr
  apex := some (apexText apex)

theorem words_memberText (hstrict : lib.Strict) (h : Validated lib member) :
    words isWhiteSpace (memberText apex member).toList = versionField :: fieldsOf apex member := by
  have hversion : IsWord isWhiteSpace versionField :=
    isWord_of_printable (by decide) (printable_of_all (by decide))
  rw [memberText_toList]
  exact words_flatMap (by decide) hversion (isWord_fields hstrict h)

/-- The client reads a member's record back. -/
theorem parseRecord_memberText (hstrict : lib.Strict) (h : Validated lib member)
    {key : NodeId lib} (hkey : lib.decode member.nkZ32 = .ok key.bytes) :
    parseRecord lib (memberText apex member) = .ok (recordOf apex member key) := by
  have hlabel := normalizeLabel_of_validDeviceLabel h.label
  have hnk := NodeId.fromZ32_eq_ok_iff.mpr hkey
  have hlower : lower (apexText apex) = apexText apex :=
    lower_eq_self fun c hc => toLower_eq_self (apexText_chars apex c hc).2
  have hbase : [field "id" member.label, field "nk" member.nkZ32,
      field "apex" (apexText apex)].foldlM Fields.read ({} : Fields lib) =
      .ok ⟨some member.label, some key, none, none, some (apexText apex)⟩ :=
    bind_eq_ok_iff.mpr ⟨_, read_id rfl hlabel, bind_eq_ok_iff.mpr ⟨_, read_nk rfl hnk,
      bind_eq_ok_iff.mpr ⟨_, read_apex rfl hlower, rfl⟩⟩⟩
  have hread : (fieldsOf apex member).foldlM Fields.read ({} : Fields lib) =
      .ok ⟨some member.label, some key, hintOf member.relay, hintOf member.addr,
        some (apexText apex)⟩ := by
    rw [fieldsOf, foldlM_append, foldlM_append]
    exact bind_eq_ok_iff.mpr ⟨_, bind_eq_ok_iff.mpr ⟨_, hbase, read_relay rfl member.relay⟩,
      read_addr rfl member.addr⟩
  rw [parseRecord, words_memberText hstrict h]
  dsimp only
  rw [if_pos rfl, hread]
  rfl

/-- Bytes that are no key make the client reject the record. -/
theorem parseRecord_memberText_error (hstrict : lib.Strict) (h : Validated lib member)
    {why : String} (hkey : NodeId.fromZ32 lib member.nkZ32 = .error why) :
    parseRecord lib (memberText apex member) = .error (.badKey s!"{member.nkZ32}: {why}") := by
  have hid : ({} : Fields lib).read (field "id" member.label) = .ok { id := some member.label } :=
    read_id rfl (normalizeLabel_of_validDeviceLabel h.label)
  have hnk : ({ id := some member.label } : Fields lib).read (field "nk" member.nkZ32) =
      .error (.badKey s!"{member.nkZ32}: {why}") := by
    rw [Fields.read, splitOnce_field (by decide)]
    simp [hkey, refuseIf, reword]
    rfl
  rw [parseRecord, words_memberText hstrict h]
  dsimp only [fieldsOf, cons_append]
  rw [if_pos rfl, foldlM_cons, hid]
  change (foldlM Fields.read _ (_ :: _) >>= _) = _
  rw [foldlM_cons, hnk]
  rfl

/-- What validation has found out about the members of one owner: each is well
formed, and one key text stands under one label. -/
structure ValidatedMembers (lib : KeyLib) (members : List Member) : Prop where
  each : ∀ member ∈ members, Validated lib member
  one_label : ∀ a ∈ members, ∀ b ∈ members, a.nkZ32 = b.nkZ32 → a.label = b.label

theorem validatedMembers_of_validate {input : ZoneInput} (h : validate lib input = .ok ())
    {txtName : TxtName} (hmem : txtName ∈ input.txtNames) :
    ValidatedMembers lib txtName.members := by
  have howner := forM_eq_ok_iff.mp h txtName hmem
  split_ifs at howner
  obtain ⟨_, heach, hrest⟩ := bind_eq_ok_iff.mp howner
  obtain ⟨_, hlabels, -⟩ := bind_eq_ok_iff.mp hrest
  refine ⟨fun member hmember =>
    validated_of_validateMember (forM_eq_ok_iff.mp heach member hmember), ?_⟩
  intro a ha b hb hnk
  have hone := forM_eq_ok_iff.mp hlabels a.nkZ32 (mem_eraseDups.mpr (mem_map_of_mem ha))
  rw [refuseIf_eq_ok_iff, not_not] at hone
  obtain ⟨label, hlabel⟩ := length_eq_one_iff.mp hone
  have hmem : ∀ c ∈ txtName.members, c.nkZ32 = a.nkZ32 → c.label = label := by
    intro c hc hcnk
    have hin : c.label ∈
        ((txtName.members.filter (·.nkZ32 = a.nkZ32)).map Member.label).eraseDups :=
      mem_eraseDups.mpr (mem_map_of_mem (mem_filter.mpr ⟨hc, by simpa using hcnk⟩))
    rw [hlabel] at hin
    exact mem_singleton.mp hin
  rw [hmem a ha rfl, hmem b hb hnk.symm]

section Network

variable {apex : ZoneName} {members : List Member}

theorem parsedRecords_of_validated (hstrict : lib.Strict) (hmembers : ValidatedMembers lib members)
    {record : MemberRecord lib} (h : record ∈ parsedRecords lib (members.map (memberText apex))) :
    ∃ member ∈ members, lib.decode member.nkZ32 = .ok record.nodeKey.bytes ∧
      record.id = some member.label := by
  obtain ⟨text, htext, hparse⟩ := mem_parsedRecords_iff.mp h
  obtain ⟨member, hmember, rfl⟩ := mem_map.mp htext
  have hvalidated := hmembers.each member hmember
  cases hkey : NodeId.fromZ32 lib member.nkZ32 with
  | error why =>
    rw [parseRecord_memberText_error hstrict hvalidated hkey] at hparse
    cases hparse
  | ok key =>
    have hdecode := NodeId.fromZ32_eq_ok_iff.mp hkey
    rw [parseRecord_memberText hstrict hvalidated hdecode] at hparse
    cases hparse
    exact ⟨member, hmember, hdecode, rfl⟩

/-- One key has one spelling, and one spelling has one label. -/
theorem not_conflicted_of_validated (hstrict : lib.Strict) (hmembers : ValidatedMembers lib members)
    (key : List UInt8) : ¬Conflicted (parsedRecords lib (members.map (memberText apex))) key := by
  rintro ⟨a, ha, b, hb, hkey, hkey', hne⟩
  obtain ⟨member, hmember, hdecode, hid⟩ := parsedRecords_of_validated hstrict hmembers ha
  obtain ⟨other, hother, hdecode', hid'⟩ := parsedRecords_of_validated hstrict hmembers hb
  obtain ⟨_, -, -, hlength⟩ := (hmembers.each member hmember).nk
  obtain ⟨_, -, -, hlength'⟩ := (hmembers.each other hother).nk
  rw [hkey] at hdecode
  rw [hkey'] at hdecode'
  have hspelling := hstrict.spelling hdecode hdecode' (hlength.trans hlength'.symm)
  rw [hid, hid', hmembers.one_label member hmember other hother hspelling] at hne
  exact hne rfl

end Network

def sampleApex : ZoneName where
  labels := [utf8 "example"]
  valid_labels := by decide +kernel
  encoded_length := by decide +kernel

def sampleOwner : ZoneName where
  labels := [membershipLabel, utf8 "net", utf8 "org", utf8 "example"]
  valid_labels := by decide +kernel
  encoded_length := by decide +kernel

def sampleMember (nk : String) : Member :=
  ⟨"phone", nk, "", "a:1"⟩

/-- A zone of one network with one member. -/
def sampleInput (nk : String) : ZoneInput where
  zone := ⟨sampleApex, 1, [], [], by decide⟩
  nsHosts := []
  txtNames := [⟨sampleOwner, [sampleMember nk]⟩]
  rekorProofs := []
  cpEndpoints := []

/-- No point of the curve has the coordinate 2. -/
def offCurveNk : String :=
  "yeyyyyyyyyyyyyyyyyyyyyyyyyyyyyyyyyyyyyyyyyyyyyyyyyyy"

def onCurveNk : String :=
  "yryyyyyyyyyyyyyyyyyyyyyyyyyyyyyyyyyyyyyyyyyyyyyyyyyy"

theorem decode_samples :
    ed25519.decode offCurveNk = .ok (2 :: List.replicate 31 0) ∧
      ed25519.decode onCurveNk = .ok (1 :: List.replicate 31 0) ∧
      validate ed25519 (sampleInput offCurveNk) = .ok () ∧
      validate ed25519 (sampleInput onCurveNk) = .ok () ∧
      normalizeDomain "net.org.example" = .ok "net.org.example" := by
  decide +kernel

end Synch.Zone
