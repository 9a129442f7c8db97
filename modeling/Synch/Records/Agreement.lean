import Mathlib.Data.String.Basic
import Synch.Support.Lists
import Synch.Records.Delegation

/-!
# The two readings of a delegation

The verified core checks while it reads and the record code reads first and
checks afterwards.  Both are compared with a list reader that makes the core's
checks at the core's places.
-/

namespace Synch.Records

open List Synch.Support

/-! ## Reading with and without the checks -/

/-- The fields of a delegation in their order, with the version and the lists
read as told. -/
def readFields
    (version : Reader UInt8) (list : Reader (List Text))
    (finish : Delegation → Reader Delegation) : Reader Delegation := do
  let v ← version
  let spaces ← list
  let notAfter ← readSigned
  let note ← readOption readText
  let readOnly ← if v ≥ delegationVersionReadOnly then list else pure []
  finish ⟨v, spaces, notAfter, note, readOnly⟩

def readVersion : Reader UInt8 := do
  let v ← readByte
  if v > 2 then failure else pure v

def readSpaceList : Reader (List Text) := do
  let count ← readVarint
  if count > 32 then failure else readMany readText count

def checkSpaces (d : Delegation) : Reader Delegation :=
  let all := d.readable.map Text.value
  if all.isEmpty || all.length > 32 then failure
  else if !all.all validSpace || all.eraseDups.length != all.length then failure
  else pure d

def readChecked : Reader Delegation :=
  readFields readVersion readSpaceList checkSpaces

theorem visitSeq_specified :
    Delegation.visitSeq .specified = readFields readByte (readSeq readText) pure := rfl

variable {input rest : List UInt8} {d : Delegation}

theorem readFields_eq_some_iff {version : Reader UInt8} {list : Reader (List Text)}
    {finish : Delegation → Reader Delegation} {result : Delegation} :
    readFields version list finish input = some (result, rest) ↔
      ∃ d afterVersion afterSpaces afterExpiry afterNote afterFields,
        version input = some (Delegation.v d, afterVersion) ∧
        list afterVersion = some (d.spaces, afterSpaces) ∧
        readSigned afterSpaces = some (d.notAfter, afterExpiry) ∧
        readOption readText afterExpiry = some (d.note, afterNote) ∧
        (if d.v ≥ delegationVersionReadOnly then list else pure []) afterNote =
          some (d.readOnly, afterFields) ∧
        finish d afterFields = some (result, rest) := by
  constructor
  · intro h
    obtain ⟨v, afterVersion, hversion, h⟩ := bind_eq_some h
    obtain ⟨spaces, afterSpaces, hspaces, h⟩ := bind_eq_some h
    obtain ⟨notAfter, afterExpiry, hexpiry, h⟩ := bind_eq_some h
    obtain ⟨note, afterNote, hnote, h⟩ := bind_eq_some h
    split at h
    · rename_i hv
      obtain ⟨readOnly, afterFields, hreadOnly, h⟩ := bind_eq_some h
      refine ⟨⟨v, spaces, notAfter, note, readOnly⟩, afterVersion, afterSpaces,
        afterExpiry, afterNote, afterFields, hversion, hspaces, hexpiry, hnote, ?_, h⟩
      rw [if_pos hv]
      exact hreadOnly
    · rename_i hv
      refine ⟨⟨v, spaces, notAfter, note, []⟩, afterVersion, afterSpaces,
        afterExpiry, afterNote, afterNote, hversion, hspaces, hexpiry, hnote, ?_, h⟩
      rw [if_neg hv]
      rfl
  · rintro ⟨⟨v, spaces, notAfter, note, readOnly⟩, afterVersion, afterSpaces,
      afterExpiry, afterNote, afterFields, hversion, hspaces, hexpiry, hnote, hreadOnly, h⟩
    rw [readFields, bind_of_some hversion, bind_of_some hspaces, bind_of_some hexpiry,
      bind_of_some hnote]
    by_cases hv : v ≥ delegationVersionReadOnly
    · rw [if_pos hv] at hreadOnly ⊢
      rw [bind_of_some hreadOnly]
      exact h
    · rw [if_neg hv] at hreadOnly ⊢
      cases hreadOnly
      exact h

/-! ## The core's decoder follows the checked reader -/

theorem ge_readOnly_iff (v : UInt8) : v ≥ delegationVersionReadOnly ↔ v.toNat ≥ 2 :=
  UInt8.le_iff_toNat_le

theorem follows_version : Follows UInt8.toNat delegationVersion readVersion := by
  apply follows_byte.bind
  intro v
  refine follows_guard fun _ => ?_
  exact follows_pure UInt8.toNat v

theorem follows_spaceList : Follows (List.map Text.value) (uint >>= spaceList) readSpaceList := by
  apply follows_uint.bind
  intro count
  refine follows_guard fun _ => ?_
  exact follows_strings count []

theorem follows_delegation : Follows Delegation.fields delegation readChecked := by
  apply follows_version.bind
  intro v
  rw [← bind_assoc]
  apply follows_spaceList.bind
  intro spaces
  apply follows_sint.bind
  intro notAfter
  apply (follows_optional follows_string).bind
  intro note
  by_cases hv : v ≥ delegationVersionReadOnly
  · simp only [if_pos hv, if_pos ((ge_readOnly_iff v).mp hv)]
    rw [← bind_assoc]
    apply follows_spaceList.bind
    intro readOnly
    rw [checkSpaces, Delegation.readable, map_append]
    refine follows_guard fun _ => follows_guard fun _ => ?_
    exact follows_pure Delegation.fields ⟨v, spaces, notAfter, note, readOnly⟩
  · simp only [if_neg hv, if_neg fun h => hv ((ge_readOnly_iff v).mpr h)]
    change Follows Delegation.fields _ (checkSpaces ⟨v, spaces, notAfter, note, []⟩)
    rw [checkSpaces, Delegation.readable, map_append]
    refine follows_guard fun _ => follows_guard fun _ => ?_
    exact follows_pure Delegation.fields ⟨v, spaces, notAfter, note, []⟩

theorem readVersion_eq_some_iff {v : UInt8} :
    readVersion input = some (v, rest) ↔ readByte input = some (v, rest) ∧ v ≤ 2 := by
  constructor
  · intro h
    obtain ⟨v', afterVersion, hread, h⟩ := bind_eq_some h
    split at h
    · cases h
    · rename_i hv
      cases h
      exact ⟨hread, UInt8.not_lt.mp hv⟩
  · rintro ⟨hread, hv⟩
    rw [readVersion, bind_of_some hread, if_neg (UInt8.not_lt.mpr hv)]
    rfl

theorem readSpaceList_eq_some_iff {spaces : List Text} :
    readSpaceList input = some (spaces, rest) ↔
      readSeq readText input = some (spaces, rest) ∧ spaces.length ≤ 32 := by
  constructor
  · intro h
    obtain ⟨count, afterCount, hcount, h⟩ := bind_eq_some h
    split at h
    · cases h
    · refine ⟨?_, ?_⟩
      · rw [readSeq, bind_of_some hcount]
        exact h
      · rw [length_of_readMany h]
        omega
  · rintro ⟨h, hfew⟩
    obtain ⟨count, afterCount, hcount, h⟩ := bind_eq_some h
    have hlength := length_of_readMany h
    rw [readSpaceList, bind_of_some hcount, if_neg (by omega)]
    exact h

/-- A grant that may be honored: between one and 32 spaces, valid and distinct. -/
structure Delegation.Grants (d : Delegation) : Prop where
  nonempty : d.readable ≠ []
  bounded : d.readable.length ≤ 32
  valid : ∀ s ∈ d.readable, validSpace s.value = true
  distinct : (d.readable.map Text.value).Nodup

theorem checkSpaces_eq_some_iff {result : Delegation} :
    checkSpaces d input = some (result, rest) ↔ d.Grants ∧ result = d ∧ rest = input := by
  have hcount : ((d.readable.map Text.value).isEmpty ||
      decide ((d.readable.map Text.value).length > 32)) = true ↔
        d.readable = [] ∨ 32 < d.readable.length := by
    simp
  have hspaces : (!(d.readable.map Text.value).all validSpace ||
      (d.readable.map Text.value).eraseDups.length !=
        (d.readable.map Text.value).length) = true ↔
        ¬((∀ s ∈ d.readable, validSpace s.value = true) ∧ (d.readable.map Text.value).Nodup) := by
    rw [← length_eraseDups_eq_iff]
    simp [imp_iff_not_or]
  rw [checkSpaces]
  constructor
  · intro h
    split at h
    · cases h
    · rename_i hfew
      split at h
      · cases h
      · rename_i hgood
        rw [hcount, not_or, not_lt] at hfew
        rw [hspaces, not_not] at hgood
        cases h
        exact ⟨⟨hfew.1, hfew.2, hgood.1, hgood.2⟩, rfl, rfl⟩
  · rintro ⟨hgrants, rfl, rfl⟩
    rw [if_neg, if_neg]
    · rfl
    · rw [hspaces, not_not]
      exact ⟨hgrants.valid, hgrants.distinct⟩
    · rw [hcount, not_or, not_lt]
      exact ⟨hgrants.nonempty, hgrants.bounded⟩

theorem Delegation.isWellFormed_iff (d : Delegation) :
    d.isWellFormed = true ↔
      d.v ≤ 2 ∧ (d.v ≥ delegationVersionReadOnly ∨ d.readOnly = []) ∧ d.Grants := by
  have hdistinct := length_destutter_insertionSort_eq_iff (d.readable.map Text.value)
  have hlength : d.spaces.length + d.readOnly.length = d.readable.length := by
    rw [readable, length_append]
  have hvalid : d.readable.all (fun s => (validateSpace s.value).isOk) = true ↔
      ∀ s ∈ d.readable, validSpace s.value = true := by
    simp only [all_eq_true, isOk_validateSpace]
  rw [isWellFormed]
  simp only [Bool.and_eq_true, Bool.or_eq_true, decide_eq_true_eq, beq_iff_eq,
    List.isEmpty_iff, hlength, hvalid, maxDelegationSpaces]
  rw [hdistinct]
  constructor
  · rintro ⟨⟨⟨⟨⟨hv, hreadOnly⟩, hsome⟩, hfew⟩, hall⟩, hnodup⟩
    exact ⟨hv, hreadOnly, List.length_pos_iff.mp hsome, hfew, hall, hnodup⟩
  · rintro ⟨hv, hreadOnly, hgrants⟩
    exact ⟨⟨⟨⟨⟨hv, hreadOnly⟩, List.length_pos_iff.mpr hgrants.nonempty⟩,
      hgrants.bounded⟩, hgrants.valid⟩, hgrants.distinct⟩

/-- The checked reader accepts the well-formed delegations among those the
unchecked one reads. -/
theorem readChecked_eq_some_iff :
    readChecked input = some (d, rest) ↔
      Delegation.visitSeq .specified input = some (d, rest) ∧ d.isWellFormed = true := by
  rw [readChecked, visitSeq_specified, readFields_eq_some_iff, readFields_eq_some_iff,
    Delegation.isWellFormed_iff]
  constructor
  · rintro ⟨d', afterVersion, afterSpaces, afterExpiry, afterNote, afterFields,
      hversion, hspaces, hexpiry, hnote, hreadOnly, hcheck⟩
    obtain ⟨hgrants, rfl, rfl⟩ := checkSpaces_eq_some_iff.mp hcheck
    rw [readVersion_eq_some_iff] at hversion
    rw [readSpaceList_eq_some_iff] at hspaces
    by_cases hv : d.v ≥ delegationVersionReadOnly
    · rw [if_pos hv, readSpaceList_eq_some_iff] at hreadOnly
      refine ⟨⟨d, afterVersion, afterSpaces, afterExpiry, afterNote, rest, hversion.1,
        hspaces.1, hexpiry, hnote, ?_, rfl⟩, hversion.2, .inl hv, hgrants⟩
      rw [if_pos hv]
      exact hreadOnly.1
    · rw [if_neg hv] at hreadOnly
      refine ⟨⟨d, afterVersion, afterSpaces, afterExpiry, afterNote, rest, hversion.1,
        hspaces.1, hexpiry, hnote, ?_, rfl⟩, hversion.2, .inr ?_, hgrants⟩
      · rw [if_neg hv]
        exact hreadOnly
      · injection hreadOnly with hreadOnly
        exact (congrArg Prod.fst hreadOnly).symm
  · rintro ⟨⟨d', afterVersion, afterSpaces, afterExpiry, afterNote, afterFields,
      hversion, hspaces, hexpiry, hnote, hreadOnly, hpure⟩, hle, -, hgrants⟩
    cases hpure
    have hbound := hgrants.bounded
    rw [Delegation.readable, length_append] at hbound
    refine ⟨d, afterVersion, afterSpaces, afterExpiry, afterNote, rest,
      readVersion_eq_some_iff.mpr ⟨hversion, hle⟩,
      readSpaceList_eq_some_iff.mpr ⟨hspaces, by omega⟩, hexpiry, hnote, ?_,
      checkSpaces_eq_some_iff.mpr ⟨hgrants, rfl, rfl⟩⟩
    by_cases hv : d.v ≥ delegationVersionReadOnly
    · rw [if_pos hv] at hreadOnly ⊢
      exact readSpaceList_eq_some_iff.mpr ⟨hreadOnly, by omega⟩
    · rw [if_neg hv] at hreadOnly ⊢
      exact hreadOnly

theorem reads_encode (h : d.isWellFormed = true) :
    Reads (Delegation.visitSeq .specified) d (d.encode .specified) := by
  obtain ⟨-, hversion, hgrants⟩ := d.isWellFormed_iff.mp h
  have hbound := hgrants.bounded
  rw [Delegation.readable, length_append] at hbound
  have hspaces := reads_seq reads_text (by omega : d.spaces.length < 2 ^ 64)
  have hreadOnly := reads_seq reads_text (by omega : d.readOnly.length < 2 ^ 64)
  rw [← append_nil (d.encode .specified), Delegation.encode]
  split
  · rename_i hv
    simp only [append_assoc]
    refine (reads_byte d.v).bind (hspaces.bind ((reads_signed d.notAfter).bind
      ((reads_option reads_text d.note).bind ?_)))
    rw [if_pos hv]
    refine hreadOnly.bind ?_
    exact reads_pure d
  · rename_i hv
    simp only [append_assoc]
    refine (reads_byte d.v).bind (hspaces.bind ((reads_signed d.notAfter).bind
      ((reads_option reads_text d.note).bind ?_)))
    rw [if_neg hv, ← hversion.resolve_left hv]
    exact reads_pure d

/-! ## A row determines the grant -/

theorem intercalate_injective {spaces spaces' : List String} (h : ∀ s ∈ spaces, validSpace s = true)
    (h' : ∀ s ∈ spaces', validSpace s = true) (hne : spaces ≠ []) (hne' : spaces' ≠ [])
    (heq : String.intercalate "\n" spaces = String.intercalate "\n" spaces') :
    spaces = spaces' := by
  have hsplit : ∀ {l : List String}, (∀ s ∈ l, validSpace s = true) → l ≠ [] →
      (String.intercalate "\n" l).toList.splitOn '\n' = l.map String.toList := by
    intro l hl hlne
    rw [String.toList_intercalate]
    apply splitOn_intercalate
    · intro chars hchars
      obtain ⟨s, hs, rfl⟩ := mem_map.mp hchars
      exact newline_notMem_of_validSpace (hl s hs)
    · simpa using hlne
  have hlists := (hsplit h hne).symm.trans (heq ▸ hsplit h' hne')
  exact map_injective_iff.mpr (fun _ _ => String.toList_injective) hlists

theorem text_map_injective : Function.Injective (List.map Text.value) :=
  map_injective_iff.mpr fun _ _ => Text.ext

theorem spacesCell_injective {spaces spaces' : List Text}
    (h : ∀ s ∈ spaces, validSpace s.value = true) (h' : ∀ s ∈ spaces', validSpace s.value = true)
    (heq : spacesCell (spaces.map Text.value) = spacesCell (spaces'.map Text.value)) :
    spaces = spaces' := by
  cases spaces with
  | nil =>
    cases spaces' with
    | nil => rfl
    | cons s' spaces' => cases heq
  | cons s spaces =>
    cases spaces' with
    | nil => cases heq
    | cons s' spaces' =>
      apply text_map_injective
      apply intercalate_injective
      · simpa using h
      · simpa using h'
      · simp
      · simp
      · injection heq

theorem nullable_text_injective {note note' : Option Text}
    (heq : nullable Cell.text (note.map Text.value) =
      nullable Cell.text (note'.map Text.value)) : note = note' := by
  cases note with
  | none =>
    cases note' with
    | none => rfl
    | some text' => cases heq
  | some text =>
    cases note' with
    | none => cases heq
    | some text' =>
      have hvalue : text.value = text'.value := by injection heq
      rw [Text.ext hvalue]

/-- Two grants with one row are the same, up to the version stamp. -/
theorem Delegation.Grants.eq_of_fields {d' : Delegation} (h : d.Grants) (h' : d'.Grants)
    (heq : d.fields = d'.fields) : d = { d' with v := d.v } := by
  have hvalid := fun s hs => h.valid s (mem_append.mpr hs)
  have hvalid' := fun s hs => h'.valid s (mem_append.mpr hs)
  simp only [fields, delegationFields, cons.injEq, Prod.mk.injEq, true_and, and_true] at heq
  obtain ⟨hspaces, hreadOnly, hexpires, hnote⟩ := heq
  have hspaces := spacesCell_injective (fun s hs => hvalid s (.inl hs))
    (fun s hs => hvalid' s (.inl hs)) hspaces
  have hreadOnly := spacesCell_injective (fun s hs => hvalid s (.inr hs))
    (fun s hs => hvalid' s (.inr hs)) hreadOnly
  have hexpires : d.notAfter = d'.notAfter := by injection hexpires
  have hnote := nullable_text_injective hnote
  obtain ⟨v, spaces, notAfter, note, readOnly⟩ := d
  cases hspaces
  cases hreadOnly
  cases hexpires
  cases hnote
  rfl

/-- The verified core reads some bytes into a row exactly if the record code
decodes them into a well-formed delegation with that row, which then is the only
one up to its stamp; and a well-formed delegation is read back from its
encoding. -/
theorem delegation_readings_agree
    {postcard : Postcard} (hpostcard : postcard.Documented) :
    (∀ (input : ByteArray) (fields : Fields),
      (delegation (input, 0)).toOption.map Prod.fst = some fields ↔
        ∃ d, Delegation.decode postcard input.data.toList = some d ∧
          d.isWellFormed = true ∧ d.fields = fields) ∧
    (∀ d d' : Delegation, d.isWellFormed = true → d'.isWellFormed = true →
      d.fields = d'.fields → d = { d' with v := d.v }) ∧
    (∀ d : Delegation, d.isWellFormed = true →
      Delegation.decode postcard (d.encode postcard) = some d) := by
  rw [hpostcard.eq_specified]
  refine ⟨?_, ?_, ?_⟩
  · intro input fields
    rw [follows_delegation.toOption_eq, Option.map_eq_some_iff]
    constructor
    · rintro ⟨⟨d, rest⟩, hread, hfields⟩
      obtain ⟨hvisit, hwell⟩ := readChecked_eq_some_iff.mp hread
      exact ⟨d, congrArg (Option.map Prod.fst) hvisit, hwell, hfields⟩
    · rintro ⟨d, hdecode, hwell, hfields⟩
      obtain ⟨⟨d', rest⟩, hvisit, rfl⟩ := Option.map_eq_some_iff.mp hdecode
      exact ⟨(d', rest), readChecked_eq_some_iff.mpr ⟨hvisit, hwell⟩, hfields⟩
  · intro d d' h h' heq
    exact (d.isWellFormed_iff.mp h).2.2.eq_of_fields (d'.isWellFormed_iff.mp h').2.2 heq
  · intro d h
    have hread := reads_encode h []
    rw [append_nil] at hread
    exact congrArg (Option.map Prod.fst) hread

/-- A read-write grant of `docs` and a read-only one of `music`. -/
private def docsGrant : Delegation :=
  ⟨2, [⟨"docs", by decide⟩], 5, none, [⟨"music", by decide⟩]⟩

private def docsBytes : ByteArray :=
  ⟨#[2, 1, 4, 100, 111, 99, 115, 10, 0, 1, 5, 109, 117, 115, 105, 99]⟩

theorem delegation_readings_agree_docs :
    docsGrant.isWellFormed = true ∧
      Delegation.decode .specified docsBytes.data.toList = some docsGrant ∧
      Delegation.decode .specified (docsGrant.encode .specified) = some docsGrant ∧
      (delegation (docsBytes, 0)).toOption.map Prod.fst = some docsGrant.fields := by
  have hwell : docsGrant.isWellFormed = true := by decide +kernel
  have hdecode : Delegation.decode .specified docsBytes.data.toList = some docsGrant := by
    decide +kernel
  obtain ⟨hagree, -, hback⟩ := delegation_readings_agree Postcard.documented_specified
  exact ⟨hwell, hdecode, hback docsGrant hwell,
    (hagree docsBytes docsGrant.fields).mpr ⟨docsGrant, hdecode, hwell, rfl⟩⟩

end Synch.Records
