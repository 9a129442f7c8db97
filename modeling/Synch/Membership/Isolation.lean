import Synch.Membership.Records
import Synch.Support.Lists

/-!
# What a set of records says

The set depends on which records there are and not on their order, a key is bound
by agreement of its own records alone, and only the domain can make the set fail.
-/

namespace Synch.Membership

open Std (TreeMap)
open List Synch.Support
open MemberSet (fromRecords)

variable {lib : KeyLib}

/-! ## Ambiguous keys -/

/-- A key seen under two identities. -/
def Conflicted (parsed : List (MemberRecord lib)) (key : List UInt8) : Prop :=
  ∃ a ∈ parsed, ∃ b ∈ parsed, a.nodeKey.bytes = key ∧ b.nodeKey.bytes = key ∧ a.id ≠ b.id

theorem identitiesOf_append_singleton (parsed : List (MemberRecord lib))
    (record : MemberRecord lib) :
    identitiesOf (parsed ++ [record]) = (identitiesOf parsed).note record := by
  simp [identitiesOf]

theorem getElem?_note (identities : Identities) (record : MemberRecord lib) (key : List UInt8) :
    (identities.note record)[key]? =
      if record.nodeKey.bytes = key then
        some ((identities[record.nodeKey.bytes]?.getD []).insert record.id)
      else identities[key]? := by
  simp [Identities.note, TreeMap.getElem?_alter]

/-- The identities noted for a key are those of its records, each once. -/
theorem identitiesOf_spec (parsed : List (MemberRecord lib)) (key : List UInt8) :
    ((identitiesOf parsed)[key]?.getD []).Nodup ∧
      ∀ id, id ∈ (identitiesOf parsed)[key]?.getD [] ↔
        ∃ record ∈ parsed, record.nodeKey.bytes = key ∧ record.id = id := by
  induction parsed using reverseRecOn with
  | nil => simp [identitiesOf]
  | append_singleton parsed record ih =>
    obtain ⟨hnodup, hmem⟩ := ih
    rw [identitiesOf_append_singleton, getElem?_note]
    by_cases hkey : record.nodeKey.bytes = key
    · rw [if_pos hkey, hkey, Option.getD_some]
      refine ⟨List.Nodup.insert hnodup, fun id => ?_⟩
      rw [mem_insert_iff, hmem]
      constructor
      · rintro (rfl | ⟨other, hother, hrest⟩)
        · exact ⟨record, by simp, hkey, rfl⟩
        · exact ⟨other, by simp [hother], hrest⟩
      · rintro ⟨other, hother, hbytes, rfl⟩
        obtain hother | hother := mem_append.mp hother
        · exact .inr ⟨other, hother, hbytes, rfl⟩
        · rw [mem_singleton.mp hother]
          exact .inl rfl
    · rw [if_neg hkey]
      refine ⟨hnodup, fun id => ?_⟩
      rw [hmem]
      constructor
      · rintro ⟨other, hother, hrest⟩
        exact ⟨other, by simp [hother], hrest⟩
      · rintro ⟨other, hother, hbytes, hid⟩
        obtain hother | hother := mem_append.mp hother
        · exact ⟨other, hother, hbytes, hid⟩
        · rw [mem_singleton.mp hother] at hbytes
          exact absurd hbytes hkey

variable {parsed : List (MemberRecord lib)} {record : MemberRecord lib} {whole domain : String}
    {records records' : List String} {key : NodeId lib} {set : MemberSet lib}

theorem mem_ambiguous_iff {key : List UInt8} :
    key ∈ (identitiesOf parsed).ambiguous ↔ Conflicted parsed key := by
  obtain ⟨hnodup, hmem⟩ := identitiesOf_spec parsed key
  have hlength : key ∈ (identitiesOf parsed).ambiguous ↔
      1 < ((identitiesOf parsed)[key]?.getD []).length := by
    simp only [Identities.ambiguous, mem_map, mem_filter, Prod.exists,
      TreeMap.mem_toList_iff_getElem?_eq_some, decide_eq_true_eq, exists_and_right,
      exists_eq_right]
    cases (identitiesOf parsed)[key]? with
    | none => simp
    | some seen => simp
  rw [hlength, one_lt_length_iff_of_nodup hnodup]
  simp only [hmem, Conflicted]
  constructor
  · rintro ⟨_, ⟨a, ha, hkey, rfl⟩, _, ⟨b, hb, hkey', rfl⟩, hne⟩
    exact ⟨a, ha, b, hb, hkey, hkey', hne⟩
  · rintro ⟨a, ha, b, hb, hkey, hkey', hne⟩
    exact ⟨a.id, ⟨a, ha, hkey, rfl⟩, b.id, ⟨b, hb, hkey', rfl⟩, hne⟩

theorem ambiguous_pairwise (identities : Identities) :
    identities.ambiguous.Pairwise fun a b => compare a b = .lt := by
  have hordered := TreeMap.ordered_keys_toList (t := identities)
  exact pairwise_map.mpr (hordered.filter _)

theorem ambiguous_eq_of_conflicted_iff {parsed' : List (MemberRecord lib)}
    (h : ∀ key, Conflicted parsed key ↔ Conflicted parsed' key) :
    (identitiesOf parsed).ambiguous = (identitiesOf parsed').ambiguous := by
  apply eq_of_ascending_of_mem_iff (ambiguous_pairwise _) (ambiguous_pairwise _)
  intro key
  rw [mem_ambiguous_iff, mem_ambiguous_iff, h]

/-! ## Gathering -/

/-- The origin of an identity: the key's own, or a name in the domain. -/
def originOf (domain : String) (key : NodeId lib) : Option String → OriginId lib
  | some id => .named domain id
  | none => .key key

theorem MemberRecord.origin_eq_ok (hdomain : normalizeDomain whole = .ok domain)
    (hid : ∀ label, record.id = some label → normalizeLabel label = .ok label) :
    record.origin domain = .ok (originOf domain record.nodeKey record.id) := by
  unfold MemberRecord.origin
  cases h : record.id with
  | none => rfl
  | some label =>
    dsimp only
    rw [namedOrigin_of_normalized (hid label h) hdomain]
    rfl

def clearRecords (parsed : List (MemberRecord lib)) : List (MemberRecord lib) :=
  parsed.filter fun record => record.nodeKey.bytes ∉ (identitiesOf parsed).ambiguous

theorem mem_clearRecords_iff :
    record ∈ clearRecords parsed ↔ record ∈ parsed ∧ ¬Conflicted parsed record.nodeKey.bytes := by
  simp [clearRecords, mem_ambiguous_iff]

def Harvest.addIn (domain : String) (harvest : Harvest lib) (record : MemberRecord lib) :
    Harvest lib :=
  harvest.add record (originOf domain record.nodeKey record.id)

theorem foldlM_take_eq {ambiguous : List (List UInt8)} (horigin : ∀ record ∈ parsed,
      record.origin domain = .ok (originOf domain record.nodeKey record.id))
    (harvest : Harvest lib) :
    parsed.foldlM (Harvest.take domain ambiguous) harvest =
      .ok ((parsed.filter fun record => record.nodeKey.bytes ∉ ambiguous).foldl
        (Harvest.addIn domain) harvest) := by
  induction parsed generalizing harvest with
  | nil => rfl
  | cons record parsed ih =>
    have hrest := ih fun other hother => horigin other (mem_cons_of_mem _ hother)
    rw [foldlM_cons]
    by_cases hkey : record.nodeKey.bytes ∈ ambiguous
    · rw [Harvest.take, if_pos hkey, filter_cons_of_neg (by simpa using hkey)]
      exact hrest harvest
    · rw [Harvest.take, if_neg hkey, horigin record mem_cons_self,
        filter_cons_of_pos (by simpa using hkey)]
      exact hrest (harvest.addIn domain record)

theorem bindings_foldl_addIn (domain : String) (records : List (MemberRecord lib)) :
    (records.foldl (Harvest.addIn domain) {}).bindings.Nodup ∧
      ∀ binding, binding ∈ (records.foldl (Harvest.addIn domain) {}).bindings ↔
        ∃ record ∈ records,
          binding = (originOf domain record.nodeKey record.id, record.nodeKey) := by
  induction records using reverseRecOn with
  | nil => simp
  | append_singleton records record ih =>
    obtain ⟨hnodup, hmem⟩ := ih
    rw [foldl_append, foldl_cons, foldl_nil, Harvest.addIn, Harvest.add]
    split
    · rename_i hold
      refine ⟨hnodup, fun binding => ?_⟩
      rw [hmem]
      constructor
      · rintro ⟨other, hother, hbinding⟩
        exact ⟨other, by simp [hother], hbinding⟩
      · rintro ⟨other, hother, rfl⟩
        obtain hother | hother := mem_append.mp hother
        · exact ⟨other, hother, rfl⟩
        · rw [mem_singleton.mp hother]
          exact (hmem _).mp hold
    · rename_i hold
      refine ⟨nodup_append.mpr ⟨hnodup, by simp, ?_⟩, fun binding => ?_⟩
      · intro a ha b hb hab
        rw [mem_singleton.mp hb] at hab
        exact hold (hab ▸ ha)
      · simp only [mem_append, mem_singleton, hmem]
        constructor
        · rintro (⟨other, hother, hbinding⟩ | hbinding)
          · exact ⟨other, .inl hother, hbinding⟩
          · exact ⟨record, .inr rfl, hbinding⟩
        · rintro ⟨other, hother | rfl, hbinding⟩
          · exact .inl ⟨other, hother, hbinding⟩
          · exact .inr hbinding

theorem getElem?_pushHint (key other : List UInt8) (hints : TreeMap (List UInt8) (List DialHint))
    (hint : DialHint) :
    (pushHint key hints hint)[other]?.getD [] =
      if key = other then hints[other]?.getD [] ++ [hint] else hints[other]?.getD [] := by
  by_cases hkey : key = other
  · subst hkey
    simp [pushHint]
  · simp [pushHint, TreeMap.getElem?_alter, hkey]

theorem getElem?_foldl_pushHint (key other : List UInt8) (pushed : List DialHint)
    (hints : TreeMap (List UInt8) (List DialHint)) :
    (pushed.foldl (pushHint key) hints)[other]?.getD [] =
      if key = other then hints[other]?.getD [] ++ pushed else hints[other]?.getD [] := by
  induction pushed generalizing hints with
  | nil => simp
  | cons hint pushed ih =>
    rw [foldl_cons, ih, getElem?_pushHint]
    by_cases hkey : key = other <;> simp [hkey]

/-- The hints gathered for a key are those of its records, in their order. -/
theorem hints_foldl_addIn (domain : String) (records : List (MemberRecord lib)) (key : List UInt8) :
    (records.foldl (Harvest.addIn domain) {}).hints[key]?.getD [] =
      (records.filter fun record => record.nodeKey.bytes = key).flatMap
        MemberRecord.dialHints := by
  induction records using reverseRecOn with
  | nil => simp
  | append_singleton records record ih =>
    rw [foldl_append, foldl_cons, foldl_nil, Harvest.addIn, Harvest.add,
      getElem?_foldl_pushHint, ih, filter_append]
    by_cases hkey : record.nodeKey.bytes = key <;> simp [hkey]

/-! ## The set -/

theorem fromRecords_eq (hdomain : normalizeDomain whole = .ok domain) (records : List String) :
    fromRecords lib whole records = .ok {
      domain
      bindings := sortBy bindingKey
        ((clearRecords (parsedRecords lib records)).foldl (Harvest.addIn domain) {}).bindings
      ambiguousKeys := (identitiesOf (parsedRecords lib records)).ambiguous.filterMap
        (NodeId.fromBytes lib)
      rejected := rejectedRecords lib records
      hints := ((clearRecords (parsedRecords lib records)).foldl
        (Harvest.addIn domain) {}).hints } := by
  have horigin : ∀ record ∈ parsedRecords lib records,
      record.origin domain = .ok (originOf domain record.nodeKey record.id) := by
    intro record hrecord
    obtain ⟨text, -, htext⟩ := mem_filterMap.mp hrecord
    have hparsed : parseRecord lib text = .ok record := by
      cases hparse : parseRecord lib text with
      | error reason => simp [hparse, Except.toOption] at htext
      | ok other => simpa [hparse, Except.toOption] using htext
    exact MemberRecord.origin_eq_ok hdomain fun label hlabel =>
      normalizeLabel_of_parseRecord hparsed hlabel
  exact bind_eq_ok_iff.mpr ⟨domain, hdomain, bind_eq_ok_iff.mpr ⟨_, foldlM_take_eq horigin {}, rfl⟩⟩

theorem mem_parsedRecords_iff :
    record ∈ parsedRecords lib records ↔ ∃ text ∈ records, parseRecord lib text = .ok record := by
  simp only [parsedRecords, mem_filterMap]
  refine exists_congr fun text => and_congr_right fun _ => ?_
  cases parseRecord lib text <;> simp [Except.toOption]

/-- A record of the key that parses carries this identity. -/
def Carries (lib : KeyLib) (records : List String) (key : NodeId lib) (id : Option String) : Prop :=
  ∃ text ∈ records, ∃ record, parseRecord lib text = .ok record ∧
    record.nodeKey = key ∧ record.id = id

def OfKey (lib : KeyLib) (key : NodeId lib) (text : String) : Prop :=
  ∀ record, parseRecord lib text = .ok record → record.nodeKey = key

/-- The same members, and for each key the same hints up to order and repetition. -/
structure MemberSet.Agrees (a b : MemberSet lib) : Prop where
  domain : a.domain = b.domain
  bindings : a.bindings = b.bindings
  ambiguousKeys : a.ambiguousKeys = b.ambiguousKeys
  hints : ∀ key hint, hint ∈ a.hintsFor key ↔ hint ∈ b.hintsFor key

theorem carries_iff {id : Option String} :
    Carries lib records key id ↔
      ∃ record ∈ parsedRecords lib records, record.nodeKey = key ∧ record.id = id := by
  simp only [Carries, mem_parsedRecords_iff]
  constructor
  · rintro ⟨text, htext, record, hparse, hrest⟩
    exact ⟨record, ⟨text, htext, hparse⟩, hrest⟩
  · rintro ⟨record, ⟨text, htext, hparse⟩, hrest⟩
    exact ⟨text, htext, record, hparse, hrest⟩

theorem not_conflicted_iff :
    ¬Conflicted (parsedRecords lib records) key.bytes ↔
      ∀ id id', Carries lib records key id → Carries lib records key id' → id = id' := by
  simp only [carries_iff, Conflicted]
  constructor
  · rintro h _ _ ⟨a, ha, rfl, rfl⟩ ⟨b, hb, hkey, rfl⟩
    by_contra hne
    exact h ⟨a, ha, b, hb, rfl, congrArg NodeId.bytes hkey, hne⟩
  · rintro h ⟨a, ha, b, hb, hkey, hkey', hne⟩
    exact hne (h a.id b.id ⟨a, ha, NodeId.eq_of_bytes hkey, rfl⟩
      ⟨b, hb, NodeId.eq_of_bytes hkey', rfl⟩)

/-- A key is bound by the one identity its records carry. -/
theorem mem_bindings_iff (h : fromRecords lib whole records = .ok set)
    {origin : OriginId lib} :
    (origin, key) ∈ set.bindings ↔
      ∃ id, Carries lib records key id ∧ (∀ id', Carries lib records key id' → id' = id) ∧
        origin = originOf set.domain key id := by
  obtain ⟨domain, hdomain, -⟩ := bind_eq_ok_iff.mp h
  rw [fromRecords_eq hdomain] at h
  cases h
  simp only [mem_sortBy, (bindings_foldl_addIn domain _).2, mem_clearRecords_iff, Prod.mk.injEq]
  constructor
  · rintro ⟨record, ⟨hrecord, hclear⟩, rfl, rfl⟩
    have hcarries : Carries lib records record.nodeKey record.id :=
      carries_iff.mpr ⟨record, hrecord, rfl, rfl⟩
    exact ⟨record.id, hcarries,
      fun id' h' => not_conflicted_iff.mp hclear id' record.id h' hcarries, rfl⟩
  · rintro ⟨id, hcarries, honly, rfl⟩
    obtain ⟨record, hrecord, rfl, rfl⟩ := carries_iff.mp hcarries
    refine ⟨record, ⟨hrecord, not_conflicted_iff.mpr fun a b ha hb => ?_⟩, rfl, rfl⟩
    rw [honly a ha, honly b hb]

theorem bindingKey_injective : Function.Injective (bindingKey : OriginId lib × NodeId lib → _) := by
  have hbytes : ∀ {a b : NodeId lib},
      a.bytes.map UInt8.toNat = b.bytes.map UInt8.toNat → a = b := fun h =>
    NodeId.eq_of_bytes (map_injective_iff.mpr (fun _ _ => UInt8.toNat.inj) h)
  rintro ⟨origin, key⟩ ⟨origin', key'⟩ h
  cases origin <;> cases origin' <;>
    simp only [bindingKey, toLex_inj, Prod.mk.injEq, zero_ne_one, one_ne_zero, false_and,
      true_and] at h
  · rw [hbytes h.1, hbytes h.2]
  · rw [h.1, h.2.1, hbytes h.2.2]

theorem hintsFor_eq (h : fromRecords lib whole records = .ok set) (key : NodeId lib) :
    set.hintsFor key =
      ((clearRecords (parsedRecords lib records)).filter
        fun record => record.nodeKey.bytes = key.bytes).flatMap MemberRecord.dialHints := by
  obtain ⟨domain, hdomain, -⟩ := bind_eq_ok_iff.mp h
  rw [fromRecords_eq hdomain] at h
  cases h
  exact hints_foldl_addIn domain _ key.bytes

/-- Records that parse to the same records are in conflict over the same keys. -/
theorem conflicted_congr {parsed' : List (MemberRecord lib)}
    (h : ∀ record, record ∈ parsed ↔ record ∈ parsed') (key : List UInt8) :
    Conflicted parsed key ↔ Conflicted parsed' key := by
  simp only [Conflicted, h]

theorem agrees_of_mem_iff {set' : MemberSet lib}
    (hset : fromRecords lib whole records = .ok set)
    (hset' : fromRecords lib whole records' = .ok set')
    (h : ∀ text, text ∈ records ↔ text ∈ records') : set.Agrees set' := by
  have hparsed : ∀ record, record ∈ parsedRecords lib records ↔
      record ∈ parsedRecords lib records' := by
    simp only [mem_parsedRecords_iff, h, implies_true]
  have hclear : ∀ record, record ∈ clearRecords (parsedRecords lib records) ↔
      record ∈ clearRecords (parsedRecords lib records') := by
    simp only [mem_clearRecords_iff, hparsed, conflicted_congr hparsed, implies_true]
  have hhints : ∀ key hint, hint ∈ set.hintsFor key ↔ hint ∈ set'.hintsFor key := by
    intro key hint
    rw [hintsFor_eq hset, hintsFor_eq hset']
    simp only [mem_flatMap, mem_filter, hclear]
  obtain ⟨domain, hdomain, -⟩ := bind_eq_ok_iff.mp hset
  rw [fromRecords_eq hdomain] at hset hset'
  cases hset
  cases hset'
  have hambiguous := ambiguous_eq_of_conflicted_iff (conflicted_congr hparsed)
  refine ⟨rfl, ?_, by rw [hambiguous], hhints⟩
  obtain ⟨hnodup, hmem⟩ := bindings_foldl_addIn domain (clearRecords (parsedRecords lib records))
  obtain ⟨hnodup', hmem'⟩ :=
    bindings_foldl_addIn domain (clearRecords (parsedRecords lib records'))
  apply sortBy_eq_of_perm bindingKey
  · rw [perm_ext_iff_of_nodup hnodup hnodup']
    simp only [hmem, hmem', hclear, implies_true]
  · exact fun a _ b _ hab => bindingKey_injective hab

theorem hintsFor_perm {set' : MemberSet lib}
    (hset : fromRecords lib whole records = .ok set)
    (hset' : fromRecords lib whole records' = .ok set') (h : records.Perm records')
    (key : NodeId lib) : (set.hintsFor key).Perm (set'.hintsFor key) := by
  have hparsed : (parsedRecords lib records).Perm (parsedRecords lib records') :=
    h.filterMap _
  have hambiguous :=
    ambiguous_eq_of_conflicted_iff (conflicted_congr fun _ => hparsed.mem_iff)
  rw [hintsFor_eq hset, hintsFor_eq hset', clearRecords, clearRecords, hambiguous]
  exact ((hparsed.filter _).filter _).flatMap_right _

/-- Records that do not belong to another key decide alone what a key carries. -/
theorem carries_congr {other : NodeId lib}
    (h : ∀ text, ¬OfKey lib key text → (text ∈ records ↔ text ∈ records')) (hother : other ≠ key)
    (id : Option String) : Carries lib records other id ↔ Carries lib records' other id := by
  have hcarried : ∀ text record, parseRecord lib text = .ok record →
      record.nodeKey = other → (text ∈ records ↔ text ∈ records') := by
    intro text record hparse hkey
    exact h text fun hof => hother (hkey.symm.trans (hof record hparse))
  constructor
  · rintro ⟨text, htext, record, hparse, hkey, hid⟩
    exact ⟨text, (hcarried text record hparse hkey).mp htext, record, hparse, hkey, hid⟩
  · rintro ⟨text, htext, record, hparse, hkey, hid⟩
    exact ⟨text, (hcarried text record hparse hkey).mpr htext, record, hparse, hkey, hid⟩

/-- Only the domain makes a set fail. -/
theorem exists_fromRecords_iff :
    (∃ set, fromRecords lib whole records = .ok set) ↔
      ∃ domain, normalizeDomain whole = .ok domain := by
  constructor
  · rintro ⟨set, hset⟩
    obtain ⟨domain, hdomain, -⟩ := bind_eq_ok_iff.mp hset
    exact ⟨domain, hdomain⟩
  · rintro ⟨domain, hdomain⟩
    exact ⟨_, fromRecords_eq hdomain records⟩

theorem domain_of_fromRecords (h : fromRecords lib whole records = .ok set) :
    normalizeDomain whole = .ok set.domain := by
  obtain ⟨domain, hdomain, -⟩ := bind_eq_ok_iff.mp h
  rw [fromRecords_eq hdomain] at h
  cases h
  exact hdomain

/-- A set is a function of which records there are, hints up to order and
repetition.  A key is bound when its records that parse, of which there is one,
carry one identity.  Records of one key have no part in another's binding, and no
record makes the set fail. -/
theorem fromRecords_order_blind_isolated (lib : KeyLib) (whole : String) :
    (∀ records, (∃ set, fromRecords lib whole records = .ok set) ↔
      ∃ domain, normalizeDomain whole = .ok domain) ∧
    ∀ records set, fromRecords lib whole records = .ok set →
      (∀ key origin, (origin, key) ∈ set.bindings ↔
        ∃ id, Carries lib records key id ∧ (∀ id', Carries lib records key id' → id' = id) ∧
          origin = originOf set.domain key id) ∧
      ∀ records' set', fromRecords lib whole records' = .ok set' →
        ((∀ text, text ∈ records ↔ text ∈ records') → set.Agrees set') ∧
        (records.Perm records' → ∀ key, (set.hintsFor key).Perm (set'.hintsFor key)) ∧
        ∀ key, (∀ text, ¬OfKey lib key text → (text ∈ records ↔ text ∈ records')) →
          ∀ other, other ≠ key → ∀ origin,
            (origin, other) ∈ set.bindings ↔ (origin, other) ∈ set'.bindings := by
  refine ⟨fun records => exists_fromRecords_iff, fun records set hset => ?_⟩
  refine ⟨fun key origin => mem_bindings_iff hset, fun records' set' hset' => ?_⟩
  refine ⟨agrees_of_mem_iff hset hset', hintsFor_perm hset hset', ?_⟩
  intro key h other hother origin
  have hdomain : set.domain = set'.domain := by
    have hsame := (domain_of_fromRecords hset).symm.trans (domain_of_fromRecords hset')
    exact Except.ok.inj hsame
  rw [mem_bindings_iff hset, mem_bindings_iff hset', hdomain]
  simp only [carries_congr h hother]

/-! ## Two records of one key -/

def otherKey : NodeId ed25519 where
  bytes := 3 :: List.replicate 31 0
  length_bytes := rfl
  onCurve_bytes := by decide +kernel

/-- The key of the first test vector of RFC 8032. -/
def sampleKey : NodeId ed25519 where
  bytes := [215, 90, 152, 1, 130, 177, 10, 183, 213, 75, 254, 211, 201, 100, 7, 58, 14, 225,
    114, 243, 218, 166, 35, 37, 175, 2, 26, 104, 247, 7, 81, 26]
  length_bytes := rfl
  onCurve_bytes := by decide +kernel

def homeRecord : String :=
  "v=sync1 nk=47pjoycnsrfmxikm95jh13y88e8qnhzu5kungjpxyepgt7a8krpy addr=a:1"

def awayRecord : String :=
  "v=sync1 nk=47pjoycnsrfmxikm95jh13y88e8qnhzu5kungjpxyepgt7a8krpy addr=b:2"

def brokenRecord : String :=
  "v=sync1 nk=47pj"

def sampleRecord (addr : String) : MemberRecord ed25519 :=
  ⟨none, sampleKey, none, some addr, none⟩

theorem parseRecord_samples :
    parseRecord ed25519 homeRecord = .ok (sampleRecord "a:1") ∧
      parseRecord ed25519 awayRecord = .ok (sampleRecord "b:2") ∧
      (parseRecord ed25519 brokenRecord).toOption = none ∧
      normalizeDomain "lab.example" = .ok "lab.example" := by
  decide +kernel

theorem hints_follow_record_order :
    ∃ set set', [homeRecord, awayRecord].Perm [awayRecord, homeRecord] ∧
      fromRecords ed25519 "lab.example" [homeRecord, awayRecord] = .ok set ∧
      fromRecords ed25519 "lab.example" [awayRecord, homeRecord] = .ok set' ∧
      set.hintsFor sampleKey = [.addr "a:1", .addr "b:2"] ∧
      set'.hintsFor sampleKey = [.addr "b:2", .addr "a:1"] := by
  obtain ⟨hhome, haway, -, hdomain⟩ := parseRecord_samples
  have hset := @fromRecords_eq ed25519 _ _ hdomain [homeRecord, awayRecord]
  have hset' := @fromRecords_eq ed25519 _ _ hdomain [awayRecord, homeRecord]
  have hparsed : parsedRecords ed25519 [homeRecord, awayRecord] =
      [sampleRecord "a:1", sampleRecord "b:2"] := by
    simp [parsedRecords, hhome, haway, Except.toOption]
  have hparsed' : parsedRecords ed25519 [awayRecord, homeRecord] =
      [sampleRecord "b:2", sampleRecord "a:1"] := by
    simp [parsedRecords, hhome, haway, Except.toOption]
  refine ⟨_, _, List.Perm.swap _ _ _, hset, hset', ?_, ?_⟩
  · rw [hintsFor_eq hset, hparsed]
    decide +kernel
  · rw [hintsFor_eq hset', hparsed']
    decide +kernel

theorem fromRecords_order_blind_isolated_pair :
    ∃ set doubled joined,
      fromRecords ed25519 "lab.example" [homeRecord, awayRecord] = .ok set ∧
      fromRecords ed25519 "lab.example" [awayRecord, homeRecord, awayRecord] = .ok doubled ∧
      fromRecords ed25519 "lab.example" [homeRecord, brokenRecord, awayRecord] = .ok joined ∧
      set.Agrees doubled ∧
      ∀ origin, (origin, sampleKey) ∈ set.bindings ↔ (origin, sampleKey) ∈ joined.bindings := by
  obtain ⟨hok, hsets⟩ := fromRecords_order_blind_isolated ed25519 "lab.example"
  obtain ⟨-, -, hnone, hname⟩ := parseRecord_samples
  have hdomain : ∃ domain, normalizeDomain "lab.example" = .ok domain := ⟨_, hname⟩
  obtain ⟨set, hset⟩ := (hok [homeRecord, awayRecord]).mpr hdomain
  obtain ⟨doubled, hdoubled⟩ := (hok [awayRecord, homeRecord, awayRecord]).mpr hdomain
  obtain ⟨joined, hjoined⟩ := (hok [homeRecord, brokenRecord, awayRecord]).mpr hdomain
  have hsame := (hsets _ set hset).2
  have hbroken : OfKey ed25519 otherKey brokenRecord := by
    intro record hrecord
    rw [hrecord] at hnone
    cases hnone
  refine ⟨set, doubled, joined, hset, hdoubled, hjoined, ?_, ?_⟩
  · exact (hsame _ doubled hdoubled).1 fun text => by simp [or_comm]
  · refine (hsame _ joined hjoined).2.2 otherKey (fun text htext => ?_) sampleKey (by decide)
    have hne : text ≠ brokenRecord := fun h => htext (h ▸ hbroken)
    simp [hne]

end Synch.Membership
