import Mathlib.Algebra.BigOperators.Group.List.Basic
import Synch.Zone.Query
import Synch.Zone.Readable

/-!
# What a publication stores

Every set of a built zone has an owner of valid labels and records short enough to
be written, so its row parses when the server reads it.
-/

namespace Synch.Zone

open List Synch.Membership Synch.Support
open Synch.Records (utf8)
open Synch.Transparency (Label encodedLength lowerByte)

variable {lib : KeyLib}

/-! ## Rows parse -/

/-- The bytes of a valid label are ASCII, and no letter among them is large. -/
theorem bytes_of_valid {label : Label} (h : validLabel label = true) :
    ∀ byte ∈ label, byte.toNat ≤ 127 ∧ lowerByte byte = byte := by
  simp only [validLabel, Bool.and_eq_true, all_eq_true, Bool.or_eq_true, beq_iff_eq] at h
  intro byte hbyte
  have hrange : (97 ≤ byte.toNat ∧ byte.toNat ≤ 122) ∨ (48 ≤ byte.toNat ∧ byte.toNat ≤ 57) ∨
      byte.toNat = 45 ∨ byte.toNat = 95 := by
    obtain hplain | rfl := h.2 byte hbyte
    · have hplain := plainByte_iff.mp hplain
      omega
    · exact .inr (.inr (.inr rfl))
  refine ⟨by omega, if_neg fun hupper => ?_⟩
  simp only [UInt8.le_iff_toNat_le] at hupper
  change 65 ≤ byte.toNat ∧ byte.toNat ≤ 90 at hupper
  omega

theorem legible_of_valid {label : Label} (h : validLabel label = true) : Legible label := by
  have hbytes := bytes_of_valid h
  simp only [validLabel, Bool.and_eq_true, decide_eq_true_eq] at h
  obtain ⟨⟨hpos, hshort⟩, -⟩ := h
  refine ⟨length_pos_iff.mp hpos, by omega,
    isSome_textOf_of_ascii fun byte hbyte => (hbytes byte hbyte).1, ?_⟩
  exact (map_congr_left fun byte hbyte => (hbytes byte hbyte).2).trans (List.map_id _)

variable {owner : Name} {parseIp : String → Option (List UInt8)} {input : ZoneInput}

/-- The counter moves over one record. -/
theorem countRrsFrom_rr (howner : ∀ label ∈ owner, Legible label) (rtype ttl : Nat)
    {rdata : List UInt8} (hrdata : rdata.length < 65536) (front back : List UInt8)
    (fuel acc : Nat) :
    countRrsFrom (fuel + 1) (front ++ (rr owner rtype ttl rdata ++ back)) front.length acc =
      countRrsFrom fuel (front ++ (rr owner rtype ttl rdata ++ back))
        (front.length + (rr owner rtype ttl rdata).length) (acc + 1) := by
  set fixed := bigEndian 2 rtype ++ bigEndian 2 classIn ++ bigEndian 4 ttl ++
    bigEndian 2 rdata.length with hfixed
  have hlength : fixed.length = 10 := by simp [hfixed]
  have hrr : rr owner rtype ttl rdata ++ back = encode owner ++ (fixed ++ (rdata ++ back)) := by
    simp [rr, hfixed]
  have hword : word fixed 8 = rdata.length := by
    have hlast := word_bigEndian hrdata []
    rw [append_nil] at hlast
    exact hlast
  have hname := decodeName_encode howner front (fixed ++ (rdata ++ back)) (Nat.zero_le 32)
  have hslice := slice_append (front ++ encode owner) fixed (rdata ++ back)
  rw [hlength, length_append, length_encode, append_assoc] at hslice
  have hsize : (rr owner rtype ttl rdata).length = encodedLength owner + 10 + rdata.length := by
    simp only [rr, length_append, length_encode, length_bigEndian]
  have hne : ¬front.length = (front ++ (encode owner ++ (fixed ++ (rdata ++ back)))).length := by
    simp only [length_append, hlength]
    omega
  rw [hrr, countRrsFrom, if_neg hne, hname]
  change (do
    let fixed ← slice (front ++ (encode owner ++ (fixed ++ (rdata ++ back))))
      (front.length + encodedLength owner) 10
    countRrsFrom fuel _ (front.length + encodedLength owner + 10 + word fixed 8) (acc + 1)) = _
  rw [hslice]
  change countRrsFrom fuel _ (front.length + encodedLength owner + 10 + word fixed 8) (acc + 1) = _
  rw [hword, hsize]
  congr 1
  omega

theorem countRrsFrom_flatMap (howner : ∀ label ∈ owner, Legible label) (rtype ttl : Nat)
    {rdatas : List (List UInt8)} (hrdatas : ∀ rdata ∈ rdatas, rdata.length < 65536)
    (front : List UInt8) {fuel : Nat} (hfuel : rdatas.length < fuel) (acc : Nat) :
    countRrsFrom fuel (front ++ rdatas.flatMap (rr owner rtype ttl)) front.length acc =
      some (acc + rdatas.length) := by
  induction rdatas generalizing front fuel acc with
  | nil =>
    obtain ⟨fuel, rfl⟩ := Nat.exists_eq_succ_of_ne_zero hfuel.ne'
    simp [countRrsFrom]
  | cons rdata rdatas ih =>
    obtain ⟨hrdata, hrest⟩ := forall_mem_cons.mp hrdatas
    obtain ⟨fuel, rfl⟩ := Nat.exists_eq_succ_of_ne_zero (Nat.ne_of_gt (Nat.zero_lt_of_lt hfuel))
    have hlt : rdatas.length < fuel := Nat.lt_of_succ_lt_succ hfuel
    have hstep := ih hrest (front ++ rr owner rtype ttl rdata) hlt (acc + 1)
    rw [append_assoc, length_append] at hstep
    rw [flatMap_cons, countRrsFrom_rr howner rtype ttl hrdata, hstep, length_cons]
    congr 1
    omega

/-- The types of a zone's sets besides the chain's. -/
def dataTypes : List Nat :=
  [typeA, typeNs, typeSoa, typeTxt, typeAaaa, typeDnskey]

/-- What a set of a built zone is like. -/
structure Rrset.Sound (apex : Name) (types : List Nat) (rrset : Rrset) : Prop where
  valid_labels : ∀ label ∈ rrset.owner, validLabel label = true
  owner_length : encodedLength rrset.owner ≤ 319
  in_zone : apex <:+ rrset.owner
  rtype_mem : rrset.rtype ∈ types
  short_rdatas : ∀ rdata ∈ rrset.rdatas, rdata.length < 65536

def Table.Sound (apex : Name) (table : Table) : Prop :=
  ∀ row ∈ table.rows, row.rrset.Sound apex (typeNsec :: dataTypes)

/-- A row as the server reads it. -/
def Row.toStored (row : Row) : Stored where
  rrsetWire := row.rrsetWire
  rrsetCount := row.rrset.rdatas.length
  rrsigWire := row.rrsigWire

theorem stored_eq {apex : Name} {types : List Nat} {row : Row} (h : row.rrset.Sound apex types) :
    stored row = .ok (some row.toStored) := by
  set ordered := row.rrset.rdatas.insertionSort fun a b => compare a b ≠ .gt with hordered
  have hperm : ordered.Perm row.rrset.rdatas := perm_insertionSort _ _
  have hrdatas : ∀ rdata ∈ ordered, rdata.length < 65536 := fun rdata hrdata =>
    h.short_rdatas rdata (hperm.mem_iff.mp hrdata)
  have hlegible : ∀ label ∈ row.rrset.owner, Legible label := fun label hlabel =>
    legible_of_valid (h.valid_labels label hlabel)
  have hle : ordered.length ≤ row.rrsetWire.length := by
    rw [Row.rrsetWire, length_flatMap]
    have hpositive : ∀ n ∈ ordered.map fun rdata =>
        (rr row.rrset.owner row.rrset.rtype row.rrset.ttl rdata).length, 1 ≤ n := by
      intro n hn
      obtain ⟨rdata, -, rfl⟩ := mem_map.mp hn
      simp only [rr, length_append, length_bigEndian]
      omega
    have hsum := length_le_sum_of_one_le _ hpositive
    rwa [length_map] at hsum
  have hcount := countRrsFrom_flatMap hlegible row.rrset.rtype row.rrset.ttl hrdatas []
    (Nat.lt_succ_of_le hle) 0
  have hwire : countRrs row.rrsetWire = some row.rrset.rdatas.length := by
    rw [Nat.zero_add, hperm.length_eq] at hcount
    exact hcount
  rw [stored, hwire]
  rfl

/-! ## Lengths -/

theorem length_chunkTxt_le (bytes : List UInt8) :
    (chunkTxt bytes).length ≤ bytes.length + bytes.length / 255 + 1 := by
  fun_induction chunkTxt bytes with
  | case1 bytes h =>
    rw [length_cons]
    omega
  | case2 bytes h ih =>
    simp only [length_append, length_cons, length_take, length_drop] at ih ⊢
    omega

theorem length_typeBitmap_le {types : List Nat} (h : ∀ t ∈ types, t < 256) :
    (typeBitmap types).length ≤ 34 := by
  unfold typeBitmap
  have hsorted : ∀ t ∈ types.eraseDups.insertionSort (· ≤ ·), t < 256 := by
    intro t ht
    rw [mem_insertionSort, mem_eraseDups] at ht
    exact h t ht
  cases hlist : types.eraseDups.insertionSort (· ≤ ·) with
  | nil => simp [windows]
  | cons first rest =>
    rw [hlist] at hsorted
    -- all types lie in the window of the first
    have hwindow : ∀ t ∈ first :: rest, decide (t / 256 = first / 256) = true := by
      intro t ht
      have hfirst := hsorted first mem_cons_self
      have htype := hsorted t ht
      rw [decide_eq_true_eq]
      omega
    have hmine : (first :: rest).takeWhile (fun t => t / 256 = first / 256) = first :: rest :=
      takeWhile_eq_self_iff.mpr hwindow
    have hothers : (first :: rest).dropWhile (fun t => t / 256 = first / 256) = [] :=
      dropWhile_eq_nil_iff.mpr hwindow
    rw [windows, hmine, hothers, windows]
    have hlast : ((first :: rest).map (· % 256)).getLast?.getD 0 < 256 := by
      cases hget : ((first :: rest).map (· % 256)).getLast? with
      | none => decide
      | some t =>
        obtain ⟨u, -, rfl⟩ := mem_map.mp (mem_of_getLast? hget)
        exact Nat.mod_lt _ (by decide)
    simp only [append_nil, length_cons, length_bitmapBytes]
    omega

theorem length_utf8_le (text : String) : (utf8 text).length ≤ 4 * text.length := by
  rw [utf8, toList_toByteArray, length_flatMap, ← String.length_toList]
  induction text.toList with
  | nil => simp
  | cons c chars ih =>
    have hchar : (String.utf8EncodeChar c).length ≤ 4 := by
      rw [String.length_utf8EncodeChar]
      exact Char.utf8Size_le_four c
    simp only [map_cons, sum_cons, length_cons]
    omega

theorem length_txtRdata_lt {text : String} (h : (utf8 text).length ≤ 60100) :
    (txtRdata text).length < 65536 := by
  have hchunks := length_chunkTxt_le (utf8 text)
  unfold txtRdata
  omega

theorem length_le_length_utf8 (text : String) : text.length ≤ (utf8 text).length := by
  rw [utf8, toList_toByteArray, length_flatMap, ← String.length_toList]
  induction text.toList with
  | nil => simp
  | cons c chars ih =>
    have hchar : 0 < (String.utf8EncodeChar c).length :=
      length_pos_iff.mpr (encodeChar_ne_nil c)
    simp only [map_cons, sum_cons, length_cons]
    omega

theorem length_apexText_le (apex : ZoneName) : (apexText apex).length ≤ 255 := by
  have htext : (toText apex.labels).length ≤ 255 := by
    have hlength := apex.encoded_length
    rw [toText_eq_terminated]
    unfold spelled
    split_ifs
    · decide
    · rw [terminated, length_flatMap]
      simp only [length_append, length_singleton]
      exact Nat.le_of_succ_le hlength
  have hascii : (asciiText (toText apex.labels)).length ≤ 255 := by
    rw [asciiText, String.length_ofList, length_map]
    exact htext
  unfold apexText stripDot
  split
  · rw [String.length_ofList, length_dropLast, String.length_toList]
    omega
  · exact hascii

theorem length_memberText_le {apex : ZoneName} {member : Member} (h : Validated lib member) :
    (memberText apex member).length ≤ 2000 := by
  obtain ⟨_, -, -, hnk⟩ := h.nk
  have hlabel : member.label.length ≤ 63 := by
    have hbytes := h.label
    simp only [validDeviceLabel, Bool.and_eq_true, decide_eq_true_eq] at hbytes
    exact le_trans (length_le_length_utf8 _) hbytes.1.2
  have hhint : ∀ {hint : String}, validHint hint = true → hint.length ≤ 255 := by
    intro hint hvalid
    simp only [validHint, Bool.and_eq_true, decide_eq_true_eq] at hvalid
    exact hvalid.1
  have hrelay := hhint h.relay
  have haddr := hhint h.addr
  have hapex := length_apexText_le apex
  have hversion : versionField.length = 7 := by decide
  rw [← String.length_toList, memberText_toList, length_append, length_flatMap, hversion]
  have hnames : "id".length = 2 ∧ "nk".length = 2 ∧ "apex".length = 4 ∧ "relay".length = 5 ∧
      "addr".length = 4 := by
    decide
  unfold fieldsOf field
  split_ifs <;>
    · simp only [map_append, map_cons, map_nil, append_nil, sum_append,
        sum_cons, sum_nil, length_cons, length_append,
        String.length_toList, append_nil]
      omega

/-! ## What is built -/

section Owners

variable {apex : ZoneName} {rtype : Nat} (hrtype : rtype ∈ dataTypes) (ttl : Nat)
  {rdatas : List (List UInt8)} (hrdatas : ∀ rdata ∈ rdatas, rdata.length < 65536)
include hrtype hrdatas

theorem sound_at {name : ZoneName} (hzone : apex.labels <:+ name.labels) :
    Rrset.Sound apex.labels dataTypes ⟨name.labels, rtype, ttl, rdatas⟩ :=
  ⟨name.valid_labels, le_trans name.encoded_length (by decide), hzone, hrtype, hrdatas⟩

theorem sound_under {label : Label} (hlabel : validLabel label = true) :
    Rrset.Sound apex.labels dataTypes ⟨label :: apex.labels, rtype, ttl, rdatas⟩ := by
  refine ⟨forall_mem_cons.mpr ⟨hlabel, apex.valid_labels⟩, ?_, suffix_cons _ _, hrtype, hrdatas⟩
  have hlength := apex.encoded_length
  simp only [validLabel, Bool.and_eq_true, decide_eq_true_eq] at hlabel
  unfold encodedLength at hlength ⊢
  rw [map_cons, sum_cons]
  omega

end Owners

theorem length_encode_le (name : ZoneName) : (encode name.labels).length ≤ 255 := by
  rw [length_encode]
  exact name.encoded_length

theorem sound_hostGlue {apex : ZoneName} {host : NsHost} (hzone : apex.labels <:+ host.host.labels)
    {rrsets : List Rrset} (h : hostGlue parseIp host = .ok rrsets) :
    ∀ rrset ∈ rrsets, rrset.Sound apex.labels dataTypes := by
  obtain ⟨parsed, hparsed, hrrsets⟩ := bind_eq_ok_iff.mp h
  cases hrrsets
  intro rrset hrrset
  obtain ⟨rtype, hrtype, rfl⟩ := mem_map.mp hrrset
  have hknown : rtype ∈ dataTypes := by
    have hmem := (mem_filter.mp hrtype).1
    simp only [mem_cons, not_mem_nil, or_false] at hmem
    obtain rfl | rfl := hmem <;> decide
  refine sound_at hknown ttlInfra (fun rdata hrdata => ?_) hzone
  obtain ⟨⟨_, bytes⟩, hmem, rfl⟩ := mem_map.mp hrdata
  obtain ⟨address, -, haddress⟩ := exists_of_mem_mapM hparsed (mem_filter.mp hmem).1
  have hrdata := orRefuse_eq_ok_iff.mp haddress
  unfold addressRdata at hrdata
  split at hrdata
  · split_ifs at hrdata with hfour hsixteen
    · cases hrdata
      exact lt_of_eq_of_lt hfour (by decide)
    · cases hrdata
      exact lt_of_eq_of_lt hsixteen (by decide)
  · cases hrdata

theorem sound_glueRrsets {glue : List Rrset} (h : glueRrsets parseIp input = .ok glue) :
    ∀ rrset ∈ glue, rrset.Sound input.zone.apex.labels dataTypes := by
  obtain ⟨groups, hgroups, hglue⟩ := bind_eq_ok_iff.mp h
  cases hglue
  intro rrset hrrset
  obtain ⟨group, hgroup, hrrset⟩ := mem_flatten.mp hrrset
  obtain ⟨host, hhost, hglue⟩ := exists_of_mem_mapM hgroups hgroup
  have hzone := inZone_eq_true_iff.mp (mem_filter.mp hhost).2
  exact sound_hostGlue hzone hglue rrset hrrset

theorem sound_rekorRrsets (input : ZoneInput) :
    ∀ rrset ∈ rekorRrsets input, rrset.Sound input.zone.apex.labels dataTypes := by
  intro rrset hrrset
  obtain ⟨index, hindex, rfl⟩ := mem_map.mp hrrset
  rw [mem_insertionSort, mem_eraseDups, mem_map] at hindex
  obtain ⟨part, -, rfl⟩ := hindex
  refine sound_under (by decide) ttlRekor (fun rdata hrdata => ?_) part.valid_label
  obtain ⟨other, -, rfl⟩ := mem_map.mp hrdata
  apply length_txtRdata_lt
  rw [utf8, length_toByteArray]
  exact le_trans other.text.short (by decide)

theorem inZone_of_validate (h : validate lib input = .ok ()) {txtName : TxtName}
    (hmem : txtName ∈ input.txtNames) : input.zone.apex.labels <:+ txtName.owner.labels := by
  have howner := forM_eq_ok_iff.mp h txtName hmem
  split_ifs at howner with hzone
  rw [Bool.not_eq_true', Bool.not_eq_false] at hzone
  exact inZone_eq_true_iff.mp hzone

theorem sound_txtName {txtName : TxtName} {apex : ZoneName}
    (hzone : apex.labels <:+ txtName.owner.labels) (h : ValidatedMembers lib txtName.members) :
    Rrset.Sound apex.labels dataTypes ⟨txtName.owner.labels, typeTxt, ttlData,
      txtName.members.map fun member => txtRdata (memberText apex member)⟩ := by
  refine sound_at (by decide) ttlData (fun rdata hrdata => ?_) hzone
  obtain ⟨member, hmember, rfl⟩ := mem_map.mp hrdata
  have hchars : (memberText apex member).length ≤ 2000 :=
    length_memberText_le (h.each member hmember)
  have hbytes := length_utf8_le (memberText apex member)
  exact length_txtRdata_lt (by omega)

theorem length_dnskeyRdatas_lt (zone : ZoneMeta) :
    ∀ rdata ∈ dnskeyRdatas zone, rdata.length < 65536 := by
  obtain ⟨hpublic, hincoming⟩ := zone.short_keys
  have hkey : ∀ key : List UInt8, key.length ≤ 60000 →
      (dnskeyRdata keyFlags keyAlgorithm key).length < 65536 := by
    intro key hshort
    simp only [dnskeyRdata, length_append, length_bigEndian]
    omega
  intro rdata hrdata
  unfold dnskeyRdatas at hrdata
  split_ifs at hrdata
  · rw [mem_singleton.mp hrdata]
    exact hkey _ hpublic
  · simp only [mem_cons, not_mem_nil, or_false] at hrdata
    obtain rfl | rfl := hrdata
    · exact hkey _ hpublic
    · exact hkey _ hincoming

theorem length_soaRdata_lt (mname apex : ZoneName) (serial refresh retry expire minimum : Nat) :
    (soaRdata mname.labels (utf8 "hostmaster" :: apex.labels) serial refresh retry expire
      minimum).length < 65536 := by
  have hmname := length_encode_le mname
  have hrname := length_encode_le apex
  have hlabel : (utf8 "hostmaster").length = 10 := by decide +kernel
  simp only [soaRdata, encode, flatMap_cons, length_append, length_cons,
    length_bigEndian, hlabel] at hmname hrname ⊢
  omega

theorem length_endpoint_lt (url : RecordText) :
    (txtRdata ("v=synccp1 url=" ++ url.text)).length < 65536 := by
  have hshort := url.short
  have hfield : "v=synccp1 url=".utf8ByteSize = 14 := by decide +kernel
  apply length_txtRdata_lt
  rw [utf8, length_toByteArray, String.utf8ByteSize_append, hfield]
  omega

theorem sound_dataRrsets (hvalid : validate lib input = .ok ()) (firstNs : ZoneName)
    {glue : List Rrset} (hglue : ∀ rrset ∈ glue, rrset.Sound input.zone.apex.labels dataTypes) :
    ∀ rrset ∈ dataRrsets input firstNs glue, rrset.Sound input.zone.apex.labels dataTypes := by
  have hlabels : validLabel transparencyLabel = true ∧ validLabel cpLabel = true := by
    decide +kernel
  have htext : (txtRdata "v=sync1 transparency").length < 65536 :=
    length_txtRdata_lt (by decide +kernel)
  have hapex := suffix_refl input.zone.apex.labels
  intro rrset hrrset
  unfold dataRrsets at hrrset
  simp only [mem_append, mem_cons, not_mem_nil, or_false] at hrrset
  obtain (((((rfl | rfl | rfl | rfl) | hrrset) | hrrset) | hrrset) | hrrset) := hrrset
  · refine sound_at (by decide) ttlData (fun rdata hrdata => ?_) hapex
    rw [mem_singleton.mp hrdata]
    exact length_soaRdata_lt firstNs input.zone.apex _ _ _ _ _
  · refine sound_at (by decide) ttlInfra (fun rdata hrdata => ?_) hapex
    obtain ⟨host, -, rfl⟩ := mem_map.mp hrdata
    exact lt_of_le_of_lt (length_encode_le host.host) (by decide)
  · exact sound_at (by decide) ttlInfra (length_dnskeyRdatas_lt input.zone) hapex
  · refine sound_under (by decide) ttlRekor (fun rdata hrdata => ?_) hlabels.1
    rwa [mem_singleton.mp hrdata]
  · split_ifs at hrrset
    · cases hrrset
    · rw [mem_singleton.mp hrrset]
      refine sound_under (by decide) ttlData (fun rdata hrdata => ?_) hlabels.2
      obtain ⟨url, -, rfl⟩ := mem_map.mp hrdata
      exact length_endpoint_lt url
  · exact hglue rrset hrrset
  · obtain ⟨txtName, htxtName, rfl⟩ := mem_map.mp hrrset
    exact sound_txtName (inZone_of_validate hvalid htxtName)
      (validatedMembers_of_validate hvalid htxtName)
  · exact sound_rekorRrsets input rrset hrrset

theorem mem_ownersInOrder {rrsets : List Rrset} :
    owner ∈ ownersInOrder rrsets ↔ ∃ rrset ∈ rrsets, rrset.owner = owner := by
  rw [ownersInOrder, mem_insertionSort, mem_eraseDups, mem_map]

theorem typesAt_lt {apex : Name} {data : List Rrset}
    (hdata : ∀ rrset ∈ data, rrset.Sound apex dataTypes) (owner : Name) :
    ∀ t ∈ typesAt data owner, t < 255 := by
  have hknown : ∀ t ∈ dataTypes, t < 255 := by decide
  intro t ht
  simp only [typesAt, mem_cons, mem_map] at ht
  obtain rfl | rfl | ⟨rrset, hrrset, rfl⟩ := ht
  · decide
  · decide
  · exact hknown _ (hdata rrset (mem_filter.mp hrrset).1).rtype_mem

theorem sound_nsecChain {apex : Name} {data : List Rrset}
    (hdata : ∀ rrset ∈ data, rrset.Sound apex dataTypes) :
    ∀ rrset ∈ nsecChain data, rrset.Sound apex (typeNsec :: dataTypes) := by
  intro rrset hrrset
  obtain ⟨⟨owner, next⟩, hpair, rfl⟩ := mem_map.mp hrrset
  obtain ⟨howner, hnext⟩ := mem_of_mem_successors hpair
  obtain ⟨own, hown, rfl⟩ := mem_ownersInOrder.mp howner
  obtain ⟨other, hother, rfl⟩ := mem_ownersInOrder.mp hnext
  have hsound := hdata own hown
  refine ⟨hsound.valid_labels, hsound.owner_length, hsound.in_zone, mem_cons_self, ?_⟩
  intro rdata hrdata
  have hbitmap := length_typeBitmap_le fun t ht =>
    Nat.lt_succ_of_lt (typesAt_lt hdata own.owner t ht)
  have hname : (encode other.owner).length ≤ 319 := by
    rw [length_encode]
    exact (hdata other hother).owner_length
  rw [mem_singleton.mp hrdata, nsecRdata, length_append]
  omega

/-! ## The table -/

/-- A published table holds the sets of a built zone, the chain after the data. -/
structure Published (lib : KeyLib) (parseIp : String → Option (List UInt8))
    (sign : Rrset → List UInt8) (input : ZoneInput) (table : Table) where
  firstNs : ZoneName
  glue : List Rrset
  valid : validate lib input = .ok ()
  glue_eq : glueRrsets parseIp input = .ok glue
  rows_eq : table.rows =
    (dataRrsets input firstNs glue ++ nsecChain (dataRrsets input firstNs glue)).map
      fun rrset => ⟨rrset, sign rrset⟩

theorem published_of_publish {sign : Rrset → List UInt8} {table : Table}
    (h : publish lib parseIp sign input = some table) :
    Nonempty (Published lib parseIp sign input table) := by
  unfold publish at h
  split at h
  · rename_i rrsets hbuild
    obtain ⟨_, hvalid, hbuild⟩ := bind_eq_ok_iff.mp hbuild
    obtain ⟨firstNs, -, hbuild⟩ := bind_eq_ok_iff.mp hbuild
    obtain ⟨glue, hglue, hbuild⟩ := bind_eq_ok_iff.mp hbuild
    cases hbuild
    unfold store at h
    dsimp only at h
    split_ifs at h
    cases h
    exact ⟨firstNs, glue, hvalid, hglue, rfl⟩
  · cases h

section Served

variable {apex : Name} {table : Table}

theorem Published.data_sound {sign : Rrset → List UInt8}
    (h : Published lib parseIp sign input table) :
    ∀ rrset ∈ dataRrsets input h.firstNs h.glue, rrset.Sound input.zone.apex.labels dataTypes :=
  sound_dataRrsets h.valid h.firstNs (sound_glueRrsets h.glue_eq)

theorem Published.sound {sign : Rrset → List UInt8} (h : Published lib parseIp sign input table) :
    table.Sound input.zone.apex.labels := by
  intro row hrow
  rw [h.rows_eq] at hrow
  obtain ⟨rrset, hrrset, rfl⟩ := mem_map.mp hrow
  obtain hrrset | hrrset := mem_append.mp hrrset
  · have hdata := h.data_sound rrset hrrset
    exact ⟨hdata.valid_labels, hdata.owner_length, hdata.in_zone,
      mem_cons_of_mem _ hdata.rtype_mem, hdata.short_rdatas⟩
  · exact sound_nsecChain h.data_sound rrset hrrset

theorem Table.Sound.plain (hsound : table.Sound apex) {row : Row} (hrow : row ∈ table.rows) :
    Plain row.rrset.owner :=
  plain_of_valid (hsound row hrow).valid_labels

/-- The row under a key. -/
def lookupRow (table : Table) (name : List UInt8) (rtype : Nat) : Option Row :=
  table.rows.find? fun row => row.name = name ∧ row.rrset.rtype = rtype

theorem row_eq_of_key_eq {a b : Row} (ha : a ∈ table.rows) (hb : b ∈ table.rows)
    (hname : a.name = b.name) (hrtype : a.rrset.rtype = b.rrset.rtype) : a = b :=
  inj_on_of_nodup_map table.primary_key ha hb (by rw [hname, hrtype])

theorem lookupRow_eq_some_iff {name : List UInt8} {rtype : Nat} {row : Row} :
    lookupRow table name rtype = some row ↔
      row ∈ table.rows ∧ row.name = name ∧ row.rrset.rtype = rtype := by
  constructor
  · intro h
    have hkey := find?_some h
    exact ⟨mem_of_find?_eq_some h, of_decide_eq_true hkey⟩
  · rintro ⟨hrow, hkey⟩
    cases hfind : lookupRow table name rtype with
    | none =>
      have hnone := find?_eq_none.mp hfind row hrow
      exact absurd (decide_eq_true hkey) hnone
    | some other =>
      have hother : other.name = name ∧ other.rrset.rtype = rtype := by
        have hdecide := find?_some hfind
        exact of_decide_eq_true hdecide
      rw [row_eq_of_key_eq (mem_of_find?_eq_some hfind) hrow
        (hother.1.trans hkey.1.symm) (hother.2.trans hkey.2.symm)]

/-- A lookup finds the one row under its key. -/
theorem lookup_eq (hsound : table.Sound apex) (name : List UInt8) (rtype : Nat) :
    lookup table name rtype = .ok ((lookupRow table name rtype).map Row.toStored) := by
  unfold lookup
  cases hrows : table.rows.filter fun row => row.name = name ∧ row.rrset.rtype = rtype with
  | nil =>
    have hnone : lookupRow table name rtype = none := by
      rw [lookupRow, ← head?_filter, hrows]
      rfl
    rw [hnone]
    rfl
  | cons row rest =>
    have hsome : lookupRow table name rtype = some row := by
      rw [lookupRow, ← head?_filter, hrows]
      rfl
    obtain ⟨hrow, -⟩ := lookupRow_eq_some_iff.mp hsome
    cases rest with
    | nil =>
      rw [hsome]
      exact stored_eq (hsound row hrow)
    | cons other rest =>
      -- two rows under one primary key
      have hother : lookupRow table name rtype = some other := by
        have hmem : other ∈ row :: other :: rest := by simp
        rw [← hrows, mem_filter, decide_eq_true_eq] at hmem
        exact lookupRow_eq_some_iff.mpr hmem
      have hnodup : (row :: other :: rest).Nodup :=
        hrows ▸ (List.Nodup.of_map _ table.primary_key).filter _
      rw [Option.some.inj (hsome.symm.trans hother)] at hnodup
      exact absurd hnodup (by simp)

theorem coveringNsec_eq (hsound : table.Sound apex) (targetKey : List UInt8) :
    coveringNsec table targetKey = .ok ((coveringRow table targetKey).map Row.toStored) := by
  unfold coveringNsec
  cases hrow : coveringRow table targetKey with
  | none => rfl
  | some row =>
    have hmem := (mem_filter.mp (maxBy_spec _ hrow).1).1
    exact stored_eq (hsound row hmem)

/-- The range of keys holds the owners at or below the name the key stands for. -/
theorem existsAtOrBelow_iff (hsound : table.Sound apex) (target : Name) :
    existsAtOrBelow table target = true ↔
      ∃ row ∈ table.rows, zeroCut target <:+ row.rrset.owner := by
  have hkey : ∀ row ∈ table.rows,
      (keyNumbers (sortKey target) ≤ keyNumbers row.key ∧
        keyNumbers row.key < keyNumbers (sortKeyUpper target)) ↔
      zeroCut target <:+ row.rrset.owner := by
    intro row hrow
    have htop : ∀ n ∈ keyNumbers row.key, n < 255 := by
      intro n hn
      obtain ⟨byte, hbyte, rfl⟩ := mem_map.mp hn
      obtain ⟨label, hlabel, hbyte⟩ := mem_flatMap.mp hbyte
      obtain hbyte | hbyte := mem_append.mp hbyte
      · have hvalid := (hsound row hrow).valid_labels label (mem_reverse.mp hlabel)
        exact Nat.lt_of_le_of_lt (bytes_of_valid hvalid byte hbyte).1 (by decide)
      · rw [mem_singleton.mp hbyte]
        decide
    have hupper : keyNumbers (sortKeyUpper target) = keyNumbers (sortKey target) ++ [255] := by
      simp [keyNumbers, sortKeyUpper]
    rw [hupper, between_iff_prefix htop, keyNumbers, keyNumbers,
      prefix_map_iff_of_injective fun _ _ => UInt8.toNat.inj]
    exact sortKey_prefix_iff (hsound.plain hrow).zeros
  simp only [existsAtOrBelow, any_eq_true, Bool.and_eq_true, decide_eq_true_eq]
  exact exists_congr fun row => and_congr_right fun hrow => hkey row hrow

/-! ## Sections of rows -/

def rowSection (row : Option Row) (doBit : Bool) : Section :=
  sectionOf (row.map Row.toStored) doBit

def soaRow (table : Table) (apex : Name) : Option Row :=
  lookupRow table (toText apex) typeSoa

def denialRow (table : Table) (qname : Name) : Option Row :=
  if isOwner table (toText qname) then lookupRow table (toText qname) typeNsec
  else coveringRow table (sortKey qname)

/-- The row that denies a wildcard that would match a name. -/
def wildcardRow (table : Table) (qname : Name) : Option Row :=
  coveringRow table (sortKey (wildcard (closestEncloser table qname)))

section

variable (hsound : table.Sound apex)
include hsound

theorem soaSection_eq (name : Name) (doBit : Bool) :
    soaSection table name doBit = .ok (rowSection (soaRow table name) doBit) := by
  rw [soaSection, lookup_eq hsound]
  rfl

theorem nodataAuthority_eq (name qname : Name) (doBit : Bool) :
    nodataAuthority table name qname doBit =
      .ok (if doBit then
        (rowSection (soaRow table name) true).append (rowSection (denialRow table qname) true)
      else rowSection (soaRow table name) false) := by
  rw [nodataAuthority, soaSection_eq hsound, denialRow]
  cases doBit with
  | false => rfl
  | true =>
    rw [lookup_eq hsound, coveringNsec_eq hsound]
    cases isOwner table (toText qname) <;> rfl

theorem nxdomainAuthority_eq (name qname : Name) (doBit : Bool) :
    nxdomainAuthority table name qname doBit =
      .ok (if doBit then
        (rowSection (soaRow table name) true).append
          (if (coveringRow table (sortKey qname)).map Row.toStored =
              (wildcardRow table qname).map Row.toStored then
            rowSection (coveringRow table (sortKey qname)) true
          else (rowSection (coveringRow table (sortKey qname)) true).append
            (rowSection (wildcardRow table qname) true))
      else rowSection (soaRow table name) false) := by
  rw [nxdomainAuthority, soaSection_eq hsound, coveringNsec_eq hsound, coveringNsec_eq hsound]
  cases doBit <;> rfl

/-- The server's three answers to a question it answers from the table. -/
theorem answerReply_cases {query : Query} (hquery : query.Asks apex) :
    (∃ row, lookupRow table (toText query.qname) query.qtype = some row ∧
      answerReply (some table) apex query = {
        rcode := rcodeNoerror, aa := true, tc := false
        answers := withSig row.toStored query.doBit
        additional := query.additional }) ∨
    (lookupRow table (toText query.qname) query.qtype = none ∧
      existsAtOrBelow table query.qname = true ∧
      ∃ authority, nodataAuthority table apex query.qname query.doBit = .ok authority ∧
        answerReply (some table) apex query = {
          rcode := rcodeNoerror, aa := true, tc := false, authority
          additional := query.additional }) ∨
    (lookupRow table (toText query.qname) query.qtype = none ∧
      existsAtOrBelow table query.qname = false ∧
      ∃ authority, nxdomainAuthority table apex query.qname query.doBit = .ok authority ∧
        answerReply (some table) apex query = {
          rcode := rcodeNxdomain, aa := true, tc := false, authority
          additional := query.additional }) := by
  rw [answerReply_of_asks hquery, inZoneAnswer, lookup_eq hsound]
  cases hrow : lookupRow table (toText query.qname) query.qtype with
  | some row => exact .inl ⟨row, rfl, rfl⟩
  | none =>
    cases existsAtOrBelow table query.qname with
    | true =>
      have hauthority := nodataAuthority_eq hsound apex query.qname query.doBit
      exact .inr (.inl ⟨rfl, rfl, _, hauthority, by simp [hauthority]; rfl⟩)
    | false =>
      have hauthority := nxdomainAuthority_eq hsound apex query.qname query.doBit
      exact .inr (.inr ⟨rfl, rfl, _, hauthority, by simp [hauthority]; rfl⟩)

end

end Served

end Synch.Zone
