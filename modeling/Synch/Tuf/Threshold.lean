import Mathlib.Data.List.Dedup
import Mathlib.Data.List.Perm.Subperm
import Synch.Tuf.Canonical
import Synch.Tuf.Metadata

/-!
# What a threshold counts

The check of a role counts the ids of keys that signed.  It counts keys if no two of the ids stand
for one key, which nothing in a root file prevents.
-/

namespace Synch.Tuf

open Std Synch.Support
open Synch.Transparency (RawKey)
open List

section Tally

variable {lib : Library} {keys : TreeMap String RawKey} {authorized : List String}
  {message : List UInt8}

/-- An id counts for a key of the table under which one of the signatures verifies. -/
def Counts (lib : Library) (keys : TreeMap String RawKey) (authorized : List String)
    (message : List UInt8) (entries : List (String × List UInt8)) (id : String) : Prop :=
  id ∈ authorized ∧ ∃ key, keys[id]? = some key ∧
    ∃ entry ∈ entries, entry.1 = id ∧ verifies lib key message entry.2 = true

theorem countSignature_signed {tally : Tally} {entry : String × List UInt8} {id : String}
    (h : id ∈ (countSignature lib keys authorized message tally entry).signed) :
    id ∈ tally.signed ∨ Counts lib keys authorized message [entry] id := by
  unfold countSignature at h
  split at h
  · exact .inl h
  · rename_i hnew
    rw [not_or, not_not] at hnew
    split at h
    · exact .inl h
    · rename_i key hkey
      split at h
      · rename_i hverifies
        obtain rfl | hmem := mem_insert_iff.mp h
        · exact .inr ⟨hnew.1, key, hkey, entry, mem_singleton_self entry, rfl, hverifies⟩
        · exact .inl hmem
      · exact .inl h

theorem countSignature_nodup {tally : Tally} {entry : String × List UInt8}
    (h : tally.signed.Nodup) :
    (countSignature lib keys authorized message tally entry).signed.Nodup := by
  unfold countSignature
  split
  · exact h
  · split
    · exact h
    · split
      · exact h.insert
      · exact h

/-- The ids of a run are distinct, and each counts. -/
theorem foldl_countSignature (entries : List (String × List UInt8)) {tally : Tally}
    (h : tally.signed.Nodup) :
    let run := entries.foldl (countSignature lib keys authorized message) tally
    run.signed.Nodup ∧
      ∀ id ∈ run.signed, id ∈ tally.signed ∨ Counts lib keys authorized message entries id := by
  induction entries generalizing tally with
  | nil => exact ⟨h, fun id hid => .inl hid⟩
  | cons entry entries ih =>
    obtain ⟨hnodup, hcounts⟩ := ih (countSignature_nodup h)
    refine ⟨hnodup, fun id hid => ?_⟩
    obtain hid | ⟨hauth, key, hkey, other, hother, hverifies⟩ := hcounts id hid
    · obtain hid | ⟨hauth, key, hkey, other, hother, hverifies⟩ := countSignature_signed hid
      · exact .inl hid
      · exact .inr ⟨hauth, key, hkey, other, by simpa using .inl (mem_singleton.mp hother),
          hverifies⟩
    · exact .inr ⟨hauth, key, hkey, other, mem_cons_of_mem _ hother, hverifies⟩

/-- Entries with distinct ids that all verify are all counted. -/
theorem length_foldl_countSignature {entries : List (String × List UInt8)} {tally : Tally}
    (hsigned : ∀ id ∈ tally.signed, id ∈ tally.tried) (hnodup : (entries.map Prod.fst).Nodup)
    (hnew : ∀ entry ∈ entries, entry.1 ∉ tally.tried)
    (hentries : ∀ entry ∈ entries, entry.1 ∈ authorized ∧ ∃ key, keys[entry.1]? = some key ∧
      verifies lib key message entry.2 = true) :
    (entries.foldl (countSignature lib keys authorized message) tally).signed.length =
      tally.signed.length + entries.length := by
  induction entries generalizing tally with
  | nil => rfl
  | cons entry entries ih =>
    obtain ⟨hauth, key, hkey, hverifies⟩ := hentries entry mem_cons_self
    have hfresh := hnew entry mem_cons_self
    rw [map_cons, nodup_cons] at hnodup
    have hcond : ¬(entry.1 ∉ authorized ∨ entry.1 ∈ tally.tried) :=
      not_or.mpr ⟨not_not.mpr hauth, hfresh⟩
    have hunsigned : entry.1 ∉ tally.signed := fun hmem => hfresh (hsigned _ hmem)
    have hstep : countSignature lib keys authorized message tally entry =
        ⟨entry.1 :: tally.tried, entry.1 :: tally.signed⟩ := by
      simp only [countSignature, if_neg hcond, hkey, hverifies, if_true,
        insert_of_not_mem hunsigned]
    rw [foldl_cons, hstep, ih]
    · simp only [length_cons]
      omega
    · intro id hid
      obtain rfl | hid := mem_cons.mp hid
      · exact mem_cons_self
      · exact mem_cons_of_mem _ (hsigned id hid)
    · exact hnodup.2
    · intro other hother hmem
      obtain heq | hmem := mem_cons.mp hmem
      · exact hnodup.1 (heq ▸ mem_map_of_mem hother)
      · exact hnew other (mem_cons_of_mem _ hother) hmem
    · exact fun other hother => hentries other (mem_cons_of_mem _ hother)

end Tally

/-! ## Keys of a role -/

/-- The distinct ids of a role that the table of keys knows. -/
def Root.usable (root : Root) (keyids : List String) : List String :=
  keyids.dedup.filter fun id => root.keys.contains id

variable {root : Root} {keyids : List String} {id role : String} {file : Meta}

theorem Root.mem_usable :
    id ∈ root.usable keyids ↔ id ∈ keyids ∧ ∃ key, root.keys[id]? = some key := by
  rw [usable, mem_filter, mem_dedup, TreeMap.contains_eq_isSome_getElem?, Option.isSome_iff_exists]

theorem Root.nodup_usable (root : Root) (keyids : List String) : (root.usable keyids).Nodup :=
  (nodup_dedup keyids).filter _

/-- So many distinct keys of the ids verify over the bytes of a file. -/
def SignedByKeys (lib : Library) (root : Root) (keyids : List String) (file : Meta) (count : Nat) :
    Prop :=
  ∃ keys : List RawKey, keys.Nodup ∧ count ≤ keys.length ∧
    ∀ key ∈ keys, (∃ id ∈ keyids, root.keys[id]? = some key) ∧
      ∃ entry ∈ file.signatures, verifies lib key file.canonical entry.2 = true

/-- Every document that the check of a role accepts is signed by as many keys as its threshold
says. -/
def ThresholdHolds (lib : Library) (root : Root) (role : String) : Prop :=
  ∀ document file, Meta.ofValue document role = .ok file → root.checkRole lib role file = .ok () →
    ∀ keyids threshold, root.roles[role]? = some (keyids, threshold) →
      SignedByKeys lib root keyids file threshold

/-- No two usable ids of the role stand for one key, or it makes no difference: one key is
enough, or even all the ids are not. -/
def Separate (root : Root) (role : String) : Prop :=
  ∀ keyids threshold, root.roles[role]? = some (keyids, threshold) →
    threshold ≤ 1 ∨ (root.usable keyids).length < threshold ∨
      ∀ id ∈ root.usable keyids, ∀ id' ∈ root.usable keyids,
        root.keys[id]? = root.keys[id']? → id = id'

/-- Each key of the role has a signature over any message that verifies under it alone. -/
def Genuine (lib : Library) (root : Root) (role : String) : Prop :=
  ∀ keyids threshold, root.roles[role]? = some (keyids, threshold) →
    ∀ id ∈ keyids, ∀ key, root.keys[id]? = some key →
      ∀ message, ∃ signature, ∀ other, verifies lib other message signature = true ↔ other = key

/-! ## Accepted documents -/

variable {lib : Library}

theorem checkRole_eq_ok_iff {threshold : Nat} (h : root.roles[role]? = some (keyids, threshold)) :
    root.checkRole lib role file = .ok () ↔ threshold ≤ (root.signedIds lib keyids file).length := by
  simp only [Root.checkRole, h]
  rw [bind_eq_ok_iff]
  constructor
  · rintro ⟨found, hfound, hcount⟩
    cases hfound
    exact Nat.not_lt.mp (refuseIf_eq_ok_iff.mp hcount)
  · intro hcount
    exact ⟨(keyids, threshold), rfl, refuseIf_eq_ok_iff.mpr (Nat.not_lt.mpr hcount)⟩

theorem signedIds_spec (lib : Library) (root : Root) (keyids : List String) (file : Meta) :
    (root.signedIds lib keyids file).Nodup ∧
      ∀ id ∈ root.signedIds lib keyids file,
        Counts lib root.keys keyids file.canonical file.signatures id := by
  obtain ⟨hnodup, hcounts⟩ := @foldl_countSignature lib root.keys keyids file.canonical
    file.signatures ⟨[], []⟩ nodup_nil
  refine ⟨hnodup, fun id hid => ?_⟩
  obtain hid | hcounts := hcounts id hid
  · cases hid
  · exact hcounts

theorem Counts.mem_usable (h : Counts lib root.keys keyids file.canonical file.signatures id) :
    id ∈ root.usable keyids :=
  Root.mem_usable.mpr ⟨h.1, h.2.imp fun _ hkey => hkey.1⟩

def Root.keyOf (root : Root) (id : String) : RawKey :=
  (root.keys[id]?).getD ⟨.ed25519, []⟩

theorem Root.keyOf_eq {key : RawKey} (h : root.keys[id]? = some key) : root.keyOf id = key := by
  rw [keyOf, h]
  rfl

theorem Root.getElem_keyOf (h : id ∈ root.usable keyids) :
    root.keys[id]? = some (root.keyOf id) := by
  obtain ⟨-, key, hkey⟩ := Root.mem_usable.mp h
  rw [hkey, Root.keyOf_eq hkey]

/-- Ids that stand for different keys count keys. -/
theorem signedByKeys_of_injective {ids : List String} (hnodup : ids.Nodup)
    (hids : ∀ id ∈ ids, Counts lib root.keys keyids file.canonical file.signatures id)
    (hinj : ∀ id ∈ ids, ∀ id' ∈ ids, root.keys[id]? = root.keys[id']? → id = id') :
    SignedByKeys lib root keyids file ids.length := by
  refine ⟨ids.map root.keyOf, ?_, by rw [length_map], ?_⟩
  · refine List.Nodup.map_on ?_ hnodup
    intro id hid id' hid' heq
    apply hinj id hid id' hid'
    rw [Root.getElem_keyOf (hids id hid).mem_usable, Root.getElem_keyOf (hids id' hid').mem_usable,
      heq]
  · intro key hkey
    obtain ⟨id, hid, rfl⟩ := mem_map.mp hkey
    obtain ⟨hauth, key, hkey, entry, hentry, -, hverifies⟩ := hids id hid
    rw [Root.keyOf_eq hkey]
    exact ⟨⟨id, hauth, hkey⟩, entry, hentry, hverifies⟩

theorem SignedByKeys.mono {count count' : Nat} (hle : count' ≤ count)
    (h : SignedByKeys lib root keyids file count) : SignedByKeys lib root keyids file count' := by
  obtain ⟨keys, hnodup, hcount, hkeys⟩ := h
  exact ⟨keys, hnodup, hle.trans hcount, hkeys⟩

/-- Where ids are separate, the check counts keys. -/
theorem thresholdHolds_of_separate (h : Separate root role) : ThresholdHolds lib root role := by
  intro document file _ hcheck keyids threshold hrole
  have hcount := (checkRole_eq_ok_iff hrole).mp hcheck
  obtain ⟨hnodup, hids⟩ := signedIds_spec lib root keyids file
  obtain hone | hfew | hinj := h keyids threshold hrole
  · -- the first id that signed is enough
    cases hsigned : root.signedIds lib keyids file with
    | nil =>
      rw [hsigned] at hcount
      refine SignedByKeys.mono hcount ⟨[], nodup_nil, le_rfl, ?_⟩
      intro key hkey
      cases hkey
    | cons id ids =>
      have hid := hids id (hsigned ▸ mem_cons_self)
      refine SignedByKeys.mono hone (signedByKeys_of_injective (nodup_singleton id) ?_ ?_)
      · intro other hother
        obtain rfl := mem_singleton.mp hother
        exact hid
      · intro a ha b hb _
        rw [mem_singleton.mp ha, mem_singleton.mp hb]
  · have hsub : (root.signedIds lib keyids file).length ≤ (root.usable keyids).length :=
      (subperm_of_subset hnodup fun id hid => (hids id hid).mem_usable).length_le
    omega
  · refine SignedByKeys.mono hcount (signedByKeys_of_injective hnodup hids ?_)
    exact fun id hid id' hid' => hinj id (hids id hid).mem_usable id' (hids id' hid').mem_usable

/-! ## A document that few keys signed -/

theorem hexDecode_flatMap (bytes : List UInt8) :
    hexDecode (bytes.flatMap hexDigits) = some bytes := by
  have hdigit : ∀ n < 16, hexValue (Nat.digitChar n) = some n := by decide
  induction bytes with
  | nil => rfl
  | cons byte bytes ih =>
    have hlt := byte.toNat_lt
    rw [flatMap_cons, hexDigits]
    simp only [cons_append, nil_append, hexDecode, hdigit _ (by omega : byte.toNat / 16 < 16),
      hdigit _ (by omega : byte.toNat % 16 < 16), ih, Option.bind_eq_bind, Option.bind_some,
      Option.pure_def, Nat.div_add_mod, UInt8.ofNat_toNat]

def signedPart (role : String) : Value :=
  .object [("_type", .string role), ("expires", .string "2030-01-01T00:00:00Z"),
    ("spec_version", .string "1.0"), ("version", .number (.whole 1 (by decide)))]

def signatureValue (entry : String × List UInt8) : Value :=
  .object [("keyid", .string entry.1), ("sig", .string (String.ofList (entry.2.flatMap hexDigits)))]

def signedDocument (role : String) (entries : List (String × List UInt8)) : Value :=
  .object [("signatures", .array (entries.map signatureValue)), ("signed", signedPart role)]

theorem exists_writeCanonical_object {members : List (String × Value)}
    (h : ∀ member ∈ members, ∃ text, writeCanonical member.2 = .ok text) :
    ∃ text, writeCanonical (.object members) = .ok text := by
  have htexts : ∃ texts : List (List Char), List.Forall₂
      (fun member text => ∃ inner, writeCanonical member.2 = .ok inner ∧
        writeMember member.1 inner = text) (sortMembers members) texts := by
    have hsorted : ∀ member ∈ sortMembers members, ∃ text, writeCanonical member.2 = .ok text :=
      fun member hmember => h member (mem_sortMembers.mp hmember)
    generalize sortMembers members = sorted at hsorted
    induction sorted with
    | nil => exact ⟨[], .nil⟩
    | cons member sorted ih =>
      obtain ⟨texts, htexts⟩ := ih fun other hother => hsorted other (mem_cons_of_mem _ hother)
      obtain ⟨inner, hinner⟩ := hsorted member mem_cons_self
      exact ⟨_ :: texts, .cons ⟨inner, hinner, rfl⟩ htexts⟩
  obtain ⟨texts, htexts⟩ := htexts
  refine ⟨writeObject texts, ?_⟩
  rw [writeCanonical, writeMembers_eq, sortMembers_map, bind_eq_ok_iff]
  refine ⟨texts, mapM_eq_ok_iff.mpr (forall₂_map_left_iff.mpr (htexts.imp ?_)), rfl⟩
  rintro ⟨key, value⟩ text ⟨inner, hinner, rfl⟩
  exact bind_eq_ok_iff.mpr ⟨inner, hinner, rfl⟩

theorem exists_canonical_signedPart (role : String) :
    ∃ message, canonicalJson (signedPart role) = .ok message := by
  have hmembers : ∃ text, writeCanonical (signedPart role) = .ok text := by
    apply exists_writeCanonical_object
    simp only [forall_mem_cons]
    exact ⟨⟨_, rfl⟩, ⟨_, rfl⟩, ⟨_, rfl⟩, ⟨_, rfl⟩, by simp⟩
  obtain ⟨text, htext⟩ := hmembers
  exact ⟨_, bind_eq_ok_iff.mpr ⟨text, htext, rfl⟩⟩

theorem parseSignature_signatureValue (role : String) (entry : String × List UInt8) :
    parseSignature role (signatureValue entry) = .ok entry := by
  have hkeyid : ((signatureValue entry).get "keyid").asStr = some entry.1 := rfl
  have hsig : ((signatureValue entry).get "sig").asStr =
      some (String.ofList (entry.2.flatMap hexDigits)) := rfl
  have hdecode : hexDecode (String.ofList (entry.2.flatMap hexDigits)).toList = some entry.2 := by
    rw [String.toList_ofList, hexDecode_flatMap]
  simp only [parseSignature, bind_eq_ok_iff, orRefuse_eq_ok_iff]
  exact ⟨_, hkeyid, _, hsig, _, hdecode, rfl⟩

theorem ofValue_signedDocument
    {message : List UInt8} (hmessage : canonicalJson (signedPart role) = .ok message)
    (entries : List (String × List UInt8)) :
    Meta.ofValue (signedDocument role entries) role =
      .ok { role, version := 1, expires := 1893456000, signed := signedPart role,
            canonical := message, signatures := entries } := by
  have hentries : (entries.map signatureValue).mapM (parseSignature role) = .ok entries := by
    rw [mapM_eq_ok_iff, forall₂_map_left_iff]
    exact forall₂_same.mpr fun entry _ => parseSignature_signatureValue role entry
  have hexpires : parseRfc3339 "2030-01-01T00:00:00Z" = some 1893456000 := by decide +kernel
  have hsigned : (signedDocument role entries).get? "signed" = some (signedPart role) := rfl
  have hsignatures : ((signedDocument role entries).get "signatures").asArray =
      some (entries.map signatureValue) := rfl
  have htype : ((signedPart role).get "_type").asStr = some role := rfl
  have hspec : ((signedPart role).get "spec_version").asStr = some "1.0" := rfl
  have hversion : ((signedPart role).get "version").asU64 = some 1 := rfl
  have htext : ((signedPart role).get "expires").asStr = some "2030-01-01T00:00:00Z" := rfl
  have hinitial : "1.".toList <+: "1.0".toList := by decide
  simp only [Meta.ofValue, bind_eq_ok_iff, orRefuse_eq_ok_iff, refuseIf_eq_ok_iff,
    reword_eq_ok_iff, not_not]
  exact ⟨_, hsigned, _, htype, (), rfl, _, hspec, (), hinitial, _, hversion, _, htext, _, hexpires,
    _, hsignatures, _, hentries, _, hmessage, rfl⟩

/-- Ids of a list, two given ones among them, in any number between two and all. -/
theorem exists_ids_of_pair {ids : List String} (hnodup : ids.Nodup) {a b : String} (ha : a ∈ ids)
    (hb : b ∈ ids) (hne : a ≠ b) {count : Nat} (htwo : 2 ≤ count) (hle : count ≤ ids.length) :
    ∃ rest, (a :: b :: rest).Nodup ∧ (a :: b :: rest).length = count ∧
      ∀ id ∈ a :: b :: rest, id ∈ ids := by
  have hb' : b ∈ ids.erase a := (mem_erase_of_ne hne.symm).mpr hb
  have hlength : ((ids.erase a).erase b).length = ids.length - 2 := by
    rw [length_erase_of_mem hb', length_erase_of_mem ha]
    omega
  have hsub : ∀ id ∈ ((ids.erase a).erase b).take (count - 2), id ∈ (ids.erase a).erase b :=
    fun id hid => mem_of_mem_take hid
  refine ⟨((ids.erase a).erase b).take (count - 2), ?_, ?_, ?_⟩
  · have herase := hnodup.erase a
    rw [nodup_cons, nodup_cons]
    refine ⟨?_, ?_, ((herase.erase b).sublist (take_sublist _ _))⟩
    · intro hmem
      obtain rfl | hmem := mem_cons.mp hmem
      · exact hne rfl
      · exact hnodup.not_mem_erase (mem_of_mem_erase (hsub a hmem))
    · exact fun hmem => herase.not_mem_erase (hsub b hmem)
  · simp only [length_cons, length_take, hlength]
    omega
  · intro id hid
    simp only [mem_cons] at hid
    obtain rfl | rfl | hid := hid
    · exact ha
    · exact hb
    · exact mem_of_mem_erase (mem_of_mem_erase (hsub id hid))

/-- Ids that stand for one key let a document through that too few keys signed. -/
theorem separate_of_thresholdHolds (hgenuine : Genuine lib root role)
    (h : ThresholdHolds lib root role) : Separate root role := by
  intro keyids threshold hrole
  by_contra hnot
  simp only [not_or, not_forall, Nat.not_le, Nat.not_lt] at hnot
  obtain ⟨htwo, hmany, a, ha, b, hb, hsame, hne⟩ := hnot
  obtain ⟨rest, hnodup, hlength, hids⟩ :=
    exists_ids_of_pair (root.nodup_usable keyids) ha hb hne htwo hmany
  obtain ⟨message, hmessage⟩ := exists_canonical_signedPart role
  have hsignature : ∀ id, ∃ signature, id ∈ root.usable keyids →
      ∀ other, verifies lib other message signature = true ↔ other = root.keyOf id := by
    intro id
    by_cases hid : id ∈ root.usable keyids
    · obtain ⟨signature, hsignature⟩ := hgenuine keyids threshold hrole id
        (Root.mem_usable.mp hid).1 _ (Root.getElem_keyOf hid) message
      exact ⟨signature, fun _ => hsignature⟩
    · exact ⟨[], fun hmem => absurd hmem hid⟩
  choose signature hsignature using hsignature
  let entries := (a :: b :: rest).map fun id => (id, signature id)
  let file : Meta :=
    { role, version := 1, expires := 1893456000, signed := signedPart role, canonical := message,
      signatures := entries }
  have hfst : entries.map Prod.fst = a :: b :: rest := by simp [entries, Function.comp_def]
  have hcheck : root.checkRole lib role file = .ok () := by
    rw [checkRole_eq_ok_iff hrole, Root.signedIds, length_foldl_countSignature]
    · simp [file, entries, ← hlength]
    · intro id hid
      cases hid
    · rw [hfst]
      exact hnodup
    · intro entry _ hmem
      cases hmem
    · intro entry hentry
      obtain ⟨id, hid, rfl⟩ := mem_map.mp hentry
      have husable := hids id hid
      exact ⟨(Root.mem_usable.mp husable).1, root.keyOf id, Root.getElem_keyOf husable,
        (hsignature id husable _).mpr rfl⟩
  obtain ⟨keys, hkeysNodup, hcount, hkeys⟩ := h _ file
    (ofValue_signedDocument hmessage entries) hcheck keyids threshold hrole
  -- the two ids stand for one key, so one of them adds nothing
  have hsub : keys ⊆ (b :: rest).map root.keyOf := by
    intro key hkey
    obtain ⟨-, entry, hentry, hverifies⟩ := hkeys key hkey
    obtain ⟨id, hid, rfl⟩ := mem_map.mp hentry
    rw [(hsignature id (hids id hid) key).mp hverifies]
    obtain rfl | hid := mem_cons.mp hid
    · have heq : root.keyOf id = root.keyOf b := by rw [Root.keyOf, Root.keyOf, hsame]
      rw [heq]
      exact mem_cons_self
    · exact mem_map_of_mem hid
  have hle := (subperm_of_subset hkeysNodup hsub).length_le
  simp only [length_map, length_cons] at hle hlength
  omega

/-- A key of the table, by one digit of its hexadecimal text. -/
def exampleKey (digit : Char) : Value :=
  .object [("keyval", .object [("public", .string (String.ofList (List.replicate 64 digit)))]),
    ("scheme", .string "ed25519")]

def examplePoint (byte : UInt8) : RawKey :=
  ⟨.ed25519, List.replicate 32 byte⟩

/-- A root file with two ids for the timestamp, which both have to sign. -/
def exampleRoot (first second : Char) : Value :=
  .object [("signatures", .array []), ("signed", .object [("_type", .string "root"),
    ("expires", .string "2030-01-01T00:00:00Z"),
    ("keys", .object [("a", exampleKey first), ("b", exampleKey second)]),
    ("roles", .object [("timestamp", .object [("keyids", .array [.string "a", .string "b"]),
      ("threshold", .number (.whole 2 (by decide)))])]),
    ("spec_version", .string "1.0"), ("version", .number (.whole 1 (by decide)))])]

/-- A signature is the key itself, tagged with its scheme. -/
def exampleLibrary : Library where
  fromSlice bytes :=
    if bytes = [0] then .ok (exampleRoot '0' '0')
    else if bytes = [1] then .ok (exampleRoot '0' '1')
    else .error "unknown file"
  verifies algorithm point _ signature :=
    match algorithm with
    | .ed25519 => signature = 1 :: point
    | _ => signature = 0 :: point
  sha256 _ := Hash.ofNat 0

theorem genuine_exampleLibrary (root : Root) (role : String) :
    Genuine exampleLibrary root role := by
  intro keyids threshold _ id _ key _ message
  obtain ⟨scheme, point⟩ := key
  cases scheme with
  | ed25519 =>
    refine ⟨1 :: point, fun other => ?_⟩
    obtain ⟨scheme, point'⟩ := other
    cases scheme <;> simp [verifies, exampleLibrary, eq_comm]
  | ecdsaP256Sha256 =>
    refine ⟨0 :: point, fun other => ?_⟩
    obtain ⟨scheme, point'⟩ := other
    cases scheme <;> simp [verifies, exampleLibrary, eq_comm]

/-- What the table of a root says about the timestamp. -/
def timestampKeys (root : Root) : Option (List String × Nat) × Option RawKey × Option RawKey :=
  (root.roles["timestamp"]?, root.keys["a"]?, root.keys["b"]?)

theorem parse_exampleRoot :
    (Root.parse exampleLibrary [0]).map timestampKeys =
        .ok (some (["a", "b"], 2), some (examplePoint 0), some (examplePoint 0)) ∧
      (Root.parse exampleLibrary [1]).map timestampKeys =
        .ok (some (["a", "b"], 2), some (examplePoint 0), some (examplePoint 0x11)) := by
  decide +kernel

end Synch.Tuf
