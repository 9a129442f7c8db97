import Synch.Zone.Lookup

/-!
# Denials are provable

The chain's records form one cycle through the owners in canonical order, each with
the types answered at its owner.  The record that the server picks for a name or a
type that does not exist is the one that proves it.
-/

namespace Synch.Zone

open List Synch.Membership Synch.Support
open Synch.Records (utf8)
open Synch.Transparency (encodedLength)

/-- The record set of the chain at an owner. -/
def nsecSet (data : List Rrset) (owner next : Name) : Rrset :=
  ⟨owner, typeNsec, ttlData, [nsecRdata next (typesAt data owner)]⟩

theorem ownersInOrder_pairwise (data : List Rrset) :
    (ownersInOrder data).Pairwise fun a b => orderKey a < orderKey b := by
  have hsorted : (ownersInOrder data).Pairwise fun a b => orderKey a ≤ orderKey b := by
    have hmap : (ownersInOrder data).map orderKey =
        ((data.map Rrset.owner).eraseDups.map orderKey).insertionSort (· ≤ ·) :=
      map_insertionSort _ _ _ _ fun a _ b _ => compareNames_ne_gt_iff
    have hpairwise : ((ownersInOrder data).map orderKey).Pairwise (· ≤ ·) := by
      rw [hmap]
      exact sortedLE_insertionSort.pairwise
    exact pairwise_map.mp hpairwise
  have hnodup : (ownersInOrder data).Nodup :=
    (perm_insertionSort _ _).nodup_iff.mpr (nodup_eraseDups _)
  refine (hsorted.and hnodup).imp fun {a b} h => lt_of_le_of_ne h.1 fun heq => ?_
  exact h.2 (orderKey_injective heq)

theorem orderKey_lt_of_suffix {a b : Name} (h : a <:+ b) (hne : a ≠ b) : orderKey a < orderKey b :=
  lt_of_le_of_ne ( le_of_prefix (orderKey_prefix_iff.mpr h)) fun heq => hne (orderKey_injective heq)

/-! ## The closest encloser -/

/-- The longest ancestor of a name that exists. -/
structure IsClosestEncloser (table : Table) (name encloser : Name) : Prop where
  above : encloser <:+ name
  proper : encloser ≠ name
  exists_below : table.Reaches encloser
  longest : ∀ other, other <:+ name → other ≠ name → table.Reaches other → other <:+ encloser

theorem isClosestEncloser {table : Table} {apex : Name} (hsound : table.Sound apex) {name : Name}
    (hfree : Free 0 name)
    (hancestor : ∃ other, other <:+ name ∧ other ≠ name ∧ table.Reaches other) :
    IsClosestEncloser table name (closestEncloser table name) := by
  induction name with
  | nil =>
    obtain ⟨other, hsuffix, hne, -⟩ := hancestor
    exact absurd (suffix_nil.mp hsuffix) hne
  | cons label parent ih =>
    have hparent : Free 0 parent := hfree.of_cons.2
    have hsplit : ∀ {other}, other <:+ label :: parent → other ≠ label :: parent →
        other <:+ parent := fun hsuffix hne =>
      (suffix_cons_iff.mp hsuffix).resolve_left hne
    have hexists : existsAtOrBelow table parent = true ↔ table.Reaches parent := by
      rw [existsAtOrBelow_iff hsound, zeroCut_of_free hparent]
      rfl
    rw [closestEncloser]
    by_cases hreaches : table.Reaches parent
    · rw [if_pos (hexists.mpr hreaches)]
      exact ⟨suffix_cons _ _, (cons_ne_self label parent).symm, hreaches,
        fun other hsuffix hne _ => hsplit hsuffix hne⟩
    · rw [if_neg fun htrue => hreaches (hexists.mp htrue)]
      have hdeeper : ∀ {other}, other <:+ label :: parent → other ≠ label :: parent →
          table.Reaches other → other <:+ parent ∧ other ≠ parent :=
        fun hsuffix hne hother =>
          ⟨hsplit hsuffix hne, fun heq => hreaches (heq ▸ hother)⟩
      obtain ⟨other, hsuffix, hne, hother⟩ := hancestor
      obtain ⟨hsuffix', hne'⟩ := hdeeper hsuffix hne hother
      have hclosest := ih hparent ⟨other, hsuffix', hne', hother⟩
      refine ⟨hclosest.above.trans (suffix_cons _ _), ?_, hclosest.exists_below, ?_⟩
      · intro heq
        have hlength := hclosest.above.length_le
        rw [heq, length_cons] at hlength
        omega
      · intro other hsuffix hne hother
        obtain ⟨hsuffix', hne'⟩ := hdeeper hsuffix hne hother
        exact hclosest.longest other hsuffix' hne' hother

/-- A row with the chain's record from one name to the next. -/
structure Table.IsNsec (table : Table) (row : Row) (owner next : Name) (types : List Nat) :
    Prop where
  mem : row ∈ table.rows
  rrset_eq : row.rrset = ⟨owner, typeNsec, ttlData, [nsecRdata next types]⟩

/-- The owner of a stored record of the chain can be read off its bytes. -/
theorem IsNsec.eq_of_toStored_eq {table : Table} {apex : Name} (hsound : table.Sound apex)
    {row row' : Row} {owner owner' next next' : Name} {types types' : List Nat}
    (h : table.IsNsec row owner next types) (h' : table.IsNsec row' owner' next' types')
    (hstored : row.toStored = row'.toStored) : row = row' := by
  have hread : ∀ {row : Row} {owner next : Name} {types : List Nat},
      table.IsNsec row owner next types → ∃ stop, decodeName row.rrsetWire 0 0 =
        some (row.rrset.owner, stop) := by
    intro row owner next types hnsec
    have hlegible : ∀ label ∈ row.rrset.owner, Legible label := fun label hlabel =>
      legible_of_valid ((hsound row hnsec.mem).valid_labels label hlabel)
    have hwire : row.rrsetWire = rr row.rrset.owner row.rrset.rtype row.rrset.ttl
        (nsecRdata next types) := by
      have hrdatas : row.rrset.rdatas = [nsecRdata next types] := by rw [hnsec.rrset_eq]
      simp [Row.rrsetWire, hrdatas]
    refine ⟨0 + encodedLength row.rrset.owner, ?_⟩
    rw [hwire, rr]
    simp only [append_assoc]
    exact decodeName_encode hlegible [] _ (Nat.zero_le _)
  obtain ⟨stop, howner⟩ := hread h
  obtain ⟨stop', howner'⟩ := hread h'
  have hwire : row.rrsetWire = row'.rrsetWire := congrArg Stored.rrsetWire hstored
  rw [hwire, howner'] at howner
  have hsame : row'.rrset.owner = row.rrset.owner := (Prod.mk.inj (Option.some.inj howner)).1
  refine row_eq_of_key_eq h.mem h'.mem (by rw [Row.name, Row.name, hsame]) ?_
  rw [h.rrset_eq, h'.rrset_eq]

/-! ## The chain of a published zone -/

section Published

variable {lib : KeyLib} {parseIp : String → Option (List UInt8)} {sign : Rrset → List UInt8}
  {input : ZoneInput} {table : Table} {query : Query}

namespace Published

variable (h : Published lib parseIp sign input table)

/-- The sets of the zone besides the chain. -/
def data : List Rrset :=
  dataRrsets input h.firstNs h.glue

def owners : List Name :=
  ownersInOrder h.data

theorem mem_rows_iff {row : Row} :
    row ∈ table.rows ↔
      (row.rrset ∈ h.data ∨ row.rrset ∈ nsecChain h.data) ∧ row.rrsigWire = sign row.rrset := by
  rw [h.rows_eq, mem_map]
  constructor
  · rintro ⟨rrset, hrrset, rfl⟩
    exact ⟨mem_append.mp hrrset, rfl⟩
  · rintro ⟨hrrset, hsig⟩
    exact ⟨row.rrset, mem_append.mpr hrrset, by rw [← hsig]⟩

theorem mem_nsecChain_iff {rrset : Rrset} :
    rrset ∈ nsecChain h.data ↔
      ∃ owner next, (owner, next) ∈ successors h.owners ∧ rrset = nsecSet h.data owner next := by
  rw [nsecChain, mem_map]
  constructor
  · rintro ⟨⟨owner, next⟩, hpair, rfl⟩
    exact ⟨owner, next, hpair, rfl⟩
  · rintro ⟨owner, next, hpair, rfl⟩
    exact ⟨(owner, next), hpair, rfl⟩

variable {owner target : Name}

theorem mem_owners_iff : owner ∈ h.owners ↔ ∃ row ∈ table.rows, row.rrset.owner = owner := by
  constructor
  · intro howner
    obtain ⟨rrset, hrrset, rfl⟩ := mem_ownersInOrder.mp howner
    exact ⟨⟨rrset, sign rrset⟩, h.mem_rows_iff.mpr ⟨.inl hrrset, rfl⟩, rfl⟩
  · rintro ⟨row, hrow, rfl⟩
    obtain ⟨hrrset | hrrset, -⟩ := h.mem_rows_iff.mp hrow
    · exact mem_ownersInOrder.mpr ⟨row.rrset, hrrset, rfl⟩
    · obtain ⟨owner, next, hpair, hset⟩ := h.mem_nsecChain_iff.mp hrrset
      rw [hset]
      exact (mem_of_mem_successors hpair).1

/-- A row of the chain's type is one of the chain. -/
theorem nsec_of_row {row : Row} (hrow : row ∈ table.rows) (hrtype : row.rrset.rtype = typeNsec) :
    ∃ next, (row.rrset.owner, next) ∈ successors h.owners ∧
      row.rrset = nsecSet h.data row.rrset.owner next := by
  obtain ⟨hrrset | hrrset, -⟩ := h.mem_rows_iff.mp hrow
  · have hknown := (h.data_sound row.rrset hrrset).rtype_mem
    rw [hrtype] at hknown
    exact absurd hknown (by decide)
  · obtain ⟨owner, next, hpair, hset⟩ := h.mem_nsecChain_iff.mp hrrset
    rw [hset]
    exact ⟨next, hpair, rfl⟩

theorem exists_nsec (howner : owner ∈ h.owners) :
    ∃ row ∈ table.rows, row.rrset.owner = owner ∧ row.rrset.rtype = typeNsec := by
  obtain ⟨next, hpair⟩ := exists_mem_successors howner
  exact ⟨⟨nsecSet h.data owner next, sign (nsecSet h.data owner next)⟩,
    h.mem_rows_iff.mpr ⟨.inr (h.mem_nsecChain_iff.mpr ⟨owner, next, hpair, rfl⟩), rfl⟩, rfl, rfl⟩

/-- The bitmap at an owner lists the signature type and the types held there. -/
theorem mem_typesAt_iff (howner : owner ∈ h.owners) {t : Nat} :
    t ∈ typesAt h.data owner ↔ t = typeRrsig ∨ table.Holds owner t := by
  simp only [typesAt, mem_cons, mem_map, mem_filter, decide_eq_true_eq]
  constructor
  · rintro (rfl | rfl | ⟨rrset, ⟨hrrset, rfl⟩, rfl⟩)
    · exact .inl rfl
    · obtain ⟨row, hrow, hname, hrtype⟩ := h.exists_nsec howner
      exact .inr ⟨row, hrow, hname, hrtype⟩
    · exact .inr ⟨⟨rrset, sign rrset⟩, h.mem_rows_iff.mpr ⟨.inl hrrset, rfl⟩, rfl, rfl⟩
  · rintro (rfl | ⟨row, hrow, rfl, rfl⟩)
    · exact .inl rfl
    · obtain ⟨hrrset | hrrset, -⟩ := h.mem_rows_iff.mp hrow
      · exact .inr (.inr ⟨row.rrset, ⟨hrrset, rfl⟩, rfl⟩)
      · obtain ⟨_, _, -, hset⟩ := h.mem_nsecChain_iff.mp hrrset
        rw [hset]
        exact .inr (.inl rfl)

theorem bitmapHas_iff (howner : owner ∈ h.owners) (t : Nat) :
    bitmapHas (typeBitmap (typesAt h.data owner)) t = true ↔
      t = typeRrsig ∨ table.Holds owner t := by
  have htypes : ∀ u ∈ typesAt h.data owner, u < 65536 := fun u hu =>
    lt_trans (typesAt_lt h.data_sound owner u hu) (by decide)
  rw [bitmapHas_typeBitmap htypes, h.mem_typesAt_iff howner]

theorem filter_nsec :
    (table.rows.map Row.rrset).filter (·.rtype = typeNsec) =
      (successors h.owners).map fun (owner, next) => nsecSet h.data owner next := by
  have hrows : table.rows.map Row.rrset = h.data ++ nsecChain h.data := by
    rw [h.rows_eq, map_map]
    exact List.map_id _
  have hdata : h.data.filter (·.rtype = typeNsec) = [] := by
    refine filter_eq_nil_iff.mpr fun rrset hrrset hrtype => ?_
    have hknown := (h.data_sound rrset hrrset).rtype_mem
    rw [of_decide_eq_true hrtype] at hknown
    exact absurd hknown (by decide)
  have hchain : (nsecChain h.data).filter (·.rtype = typeNsec) = nsecChain h.data := by
    refine filter_eq_self.mpr fun rrset hrrset => ?_
    obtain ⟨_, _, -, rfl⟩ := h.mem_nsecChain_iff.mp hrrset
    rfl
  rw [hrows, filter_append, hdata, hchain]
  rfl

theorem apex_mem_owners : input.zone.apex.labels ∈ h.owners := by
  refine mem_ownersInOrder.mpr ⟨⟨input.zone.apex.labels, typeNs, ttlInfra,
    input.nsHosts.map fun host => encode host.host.labels⟩, ?_, rfl⟩
  simp [data, dataRrsets]

theorem plain_of_mem_owners (howner : owner ∈ h.owners) : Plain owner := by
  obtain ⟨row, hrow, rfl⟩ := h.mem_owners_iff.mp howner
  exact h.sound.plain hrow

/-- The row before a name that is no owner is the chain's at the greatest owner before it,
and its pointer passes over the name. -/
theorem covers_of_coveringRow (hfree : Free 0 target) (hzone : input.zone.apex.labels <:+ target)
    (hmissing : target ∉ h.owners) :
    ∃ row next, coveringRow table (sortKey target) = some row ∧ row ∈ table.rows ∧
      (row.rrset.owner, next) ∈ successors h.owners ∧
      row.rrset = nsecSet h.data row.rrset.owner next ∧
      Covers orderKey row.rrset.owner next (orderKey target) := by
  have hkey : ∀ {row : Row}, row ∈ table.rows →
      (keyNumbers row.key < keyNumbers (sortKey target) ↔
        orderKey row.rrset.owner < orderKey target) := fun {row} hrow =>
    sortKey_lt_iff (h.sound.plain hrow).zeros hfree
  have hmem : ∀ {row : Row}, row ∈ table.rows → row.rrset.rtype = typeNsec →
      orderKey row.rrset.owner < orderKey target →
      row ∈ table.rows.filter fun row =>
        row.rrset.rtype = typeNsec ∧ keyNumbers row.key < keyNumbers (sortKey target) := by
    intro row hrow hrtype hlt
    exact mem_filter.mpr ⟨hrow, decide_eq_true ⟨hrtype, (hkey hrow).mpr hlt⟩⟩
  cases hfound : coveringRow table (sortKey target) with
  | none =>
    obtain ⟨row, hrow, howner, hrtype⟩ := h.exists_nsec h.apex_mem_owners
    have hlt := orderKey_lt_of_suffix hzone fun heq => hmissing (heq ▸ h.apex_mem_owners)
    rw [← howner] at hlt
    have hempty := (maxBy_eq_none_iff _).mp hfound
    have hin := hmem hrow hrtype hlt
    rw [hempty] at hin
    cases hin
  | some row =>
    obtain ⟨hin, hgreatest⟩ := maxBy_spec _ hfound
    rw [mem_filter, decide_eq_true_eq] at hin
    obtain ⟨hrow, hrtype, hlt⟩ := hin
    obtain ⟨next, hpair, hset⟩ := h.nsec_of_row hrow hrtype
    refine ⟨row, next, rfl, hrow, hpair, hset, covers_of_greatest orderKey hpair
      ((hkey hrow).mp hlt) ?_ fun owner howner heq => hmissing (orderKey_injective heq ▸ howner)⟩
    intro owner howner hbelow
    obtain ⟨other, hother, rfl, hrtype'⟩ := h.exists_nsec howner
    have hle := hgreatest other (hmem hother hrtype' hbelow)
    rw [← not_lt] at hle ⊢
    exact fun hgt => hle ((sortKey_lt_iff (h.sound.plain hrow).zeros
      (h.sound.plain hother).zeros).mpr hgt)

/-- Before an empty non-terminal the chain leads to a name below it. -/
theorem next_below {next : Name} (hreaches : table.Reaches target) (hmissing : target ∉ h.owners)
    (hpair : (owner, next) ∈ successors h.owners)
    (hcovers : Covers orderKey owner next (orderKey target)) : target <:+ next ∧ next ≠ target := by
  obtain ⟨row, hrow, hsuffix⟩ := hreaches
  have hbelow : row.rrset.owner ∈ h.owners := h.mem_owners_iff.mpr ⟨row, hrow, rfl⟩
  have hne : target ≠ row.rrset.owner := fun heq => hmissing (heq ▸ hbelow)
  have hlt := orderKey_lt_of_suffix hsuffix hne
  obtain ⟨hforward, hle⟩ := le_of_mem_successors orderKey (ownersInOrder_pairwise h.data) hpair
    hbelow (lt_trans hcovers.1 hlt)
  have htarget : orderKey target < orderKey next :=
    hcovers.2.resolve_right (not_le.mpr hforward)
  refine ⟨orderKey_prefix_iff.mp (prefix_of_between htarget.le hle
    (orderKey_prefix_iff.mpr hsuffix)), fun heq => ?_⟩
  rw [heq] at htarget
  exact lt_irrefl _ htarget

/-! ## What the server returns -/

theorem isOwner_iff {name : Name} (hplain : Plain name) :
    isOwner table (toText name) = true ↔ name ∈ h.owners := by
  rw [isOwner, any_eq_true, h.mem_owners_iff]
  refine exists_congr fun row => and_congr_right fun hrow => ?_
  rw [decide_eq_true_eq, Row.name, eq_comm,
    toText_eq_iff hplain.nonempty (h.sound.plain hrow), cutAt_of_free hplain.dots, eq_comm]

theorem not_owner_of_not_reaches {name : Name} (hnot : ¬table.Reaches name) : name ∉ h.owners := by
  intro hmem
  obtain ⟨row, hrow, rfl⟩ := h.mem_owners_iff.mp hmem
  exact hnot ⟨row, hrow, suffix_refl _⟩

theorem isNsec {row : Row} (hrow : row ∈ table.rows) {next : Name}
    (hset : row.rrset = nsecSet h.data row.rrset.owner next) :
    table.IsNsec row row.rrset.owner next (typesAt h.data row.rrset.owner) :=
  ⟨hrow, hset⟩

/-- With the signatures asked for, the types answered at an owner are those held. -/
theorem answers_iff_holds (hopcode : query.opcode = 0) (hclass : query.qclass = classIn)
    (hdo : query.doBit = true) (howner : query.qname ∈ h.owners) :
    (answerReply (some table) input.zone.apex.labels query).answers.count ≠ 0 ↔
      table.Holds query.qname query.qtype := by
  have hplain := h.plain_of_mem_owners howner
  by_cases hany : query.qtype = typeAny
  · have hreply : answerReply (some table) input.zone.apex.labels query =
        refusal query rcodeRefused := by
      rw [answerReply, if_neg (by simp [hopcode]), if_pos (by simp [hany])]
    rw [hreply]
    refine iff_of_false (by simp [refusal]) ?_
    rintro ⟨row, hrow, -, hrtype⟩
    have hknown := (h.sound row hrow).rtype_mem
    rw [hrtype, hany] at hknown
    exact absurd hknown (by decide)
  · obtain ⟨row, hrow, hname⟩ := h.mem_owners_iff.mp howner
    have hzone := (h.sound row hrow).in_zone
    rw [hname] at hzone
    rw [answers_ne_zero_iff h.sound ⟨hopcode, hclass, hany, hzone⟩ hplain.nonempty,
      cutAt_of_free hplain.dots]
    simp [hdo, Table.Holds]

include h in
theorem nodata_denied (hquery : query.Asks input.zone.apex.labels) (hplain : Plain query.qname)
    (hrrsig : query.qtype ≠ typeRrsig) (hdo : query.doBit = true)
    (hrcode : (answerReply (some table) input.zone.apex.labels query).rcode = rcodeNoerror)
    (hcount : (answerReply (some table) input.zone.apex.labels query).answers.count = 0) :
    ∃ row owner next types, table.IsNsec row owner next types ∧
      (answerReply (some table) input.zone.apex.labels query).authority =
        (rowSection (soaRow table input.zone.apex.labels) true).append (withSig row.toStored true) ∧
      ((owner = query.qname ∧ bitmapHas (typeBitmap types) query.qtype = false) ∨
        ((∀ row' ∈ table.rows, row'.rrset.owner ≠ query.qname) ∧
          orderKey owner < orderKey query.qname ∧ query.qname <:+ next ∧ next ≠ query.qname)) := by
  obtain ⟨row, -, hreply⟩ | ⟨hnone, hexists, authority, hauthority, hreply⟩ | ⟨-, -, _, -, hreply⟩ :=
    answerReply_cases h.sound hquery
  · rw [hreply] at hcount
    exact absurd hcount ((count_withSig_ne_zero_iff row _).mpr (.inr hdo))
  · rw [nodataAuthority_eq h.sound, hdo, if_pos rfl] at hauthority
    rw [hreply, ← Except.ok.inj hauthority, denialRow]
    have hholds := (lookupRow_toText_eq_none_iff h.sound hplain.nonempty).mp hnone
    have hreaches := (existsAtOrBelow_iff h.sound query.qname).mp hexists
    rw [cutAt_of_free hplain.dots] at hholds
    rw [zeroCut_of_free hplain.zeros] at hreaches
    by_cases howner : query.qname ∈ h.owners
    · -- the name's own record
      obtain ⟨row, hrow, hname, hrtype⟩ := h.exists_nsec howner
      obtain ⟨next, -, hset⟩ := h.nsec_of_row hrow hrtype
      have hfound : lookupRow table (toText query.qname) typeNsec = some row :=
        lookupRow_eq_some_iff.mpr ⟨hrow, by rw [Row.name, hname], hrtype⟩
      have hlacks : bitmapHas (typeBitmap (typesAt h.data row.rrset.owner)) query.qtype =
          false := by
        rw [hname, Bool.eq_false_iff, Ne, h.bitmapHas_iff howner, not_or]
        exact ⟨hrrsig, hholds⟩
      rw [if_pos ((h.isOwner_iff hplain).mpr howner), hfound]
      exact ⟨row, _, next, _, h.isNsec hrow hset, rfl, .inl ⟨hname, hlacks⟩⟩
    · obtain ⟨row, next, hfound, hrow, hpair, hset, hcovers⟩ :=
        h.covers_of_coveringRow hplain.zeros hquery.inZone howner
      obtain ⟨hbelow, hne⟩ := h.next_below hreaches howner hpair hcovers
      rw [if_neg fun htrue => howner ((h.isOwner_iff hplain).mp htrue), hfound]
      refine ⟨row, _, next, _, h.isNsec hrow hset, rfl, .inr ⟨?_, hcovers.1, hbelow, hne⟩⟩
      intro row' hrow' hname
      exact howner (h.mem_owners_iff.mpr ⟨row', hrow', hname⟩)
  · rw [hreply] at hrcode
    exact absurd hrcode (show rcodeNxdomain ≠ rcodeNoerror by decide)

include h in
theorem nxdomain_denied (hquery : query.Asks input.zone.apex.labels) (hplain : Plain query.qname)
    (hdo : query.doBit = true)
    (hrcode : (answerReply (some table) input.zone.apex.labels query).rcode = rcodeNxdomain) :
    ∃ encloser row owner next types row' owner' next' types',
      IsClosestEncloser table query.qname encloser ∧
      table.IsNsec row owner next types ∧ Covers orderKey owner next (orderKey query.qname) ∧
      table.IsNsec row' owner' next' types' ∧
      Covers orderKey owner' next' (orderKey (wildcard encloser)) ∧
      (answerReply (some table) input.zone.apex.labels query).authority =
        (rowSection (soaRow table input.zone.apex.labels) true).append
          (if row = row' then withSig row.toStored true
          else (withSig row.toStored true).append (withSig row'.toStored true)) := by
  obtain ⟨row, -, hreply⟩ | ⟨-, -, _, -, hreply⟩ | ⟨hnone, hexists, authority, hauthority, hreply⟩ :=
    answerReply_cases h.sound hquery
  · rw [hreply] at hrcode
    exact absurd hrcode (show rcodeNoerror ≠ rcodeNxdomain by decide)
  · rw [hreply] at hrcode
    exact absurd hrcode (show rcodeNoerror ≠ rcodeNxdomain by decide)
  · have hreaches : ¬table.Reaches query.qname := by
      intro hreaches
      have htrue := (existsAtOrBelow_iff h.sound query.qname).mpr
        (by rwa [zeroCut_of_free hplain.zeros])
      rw [hexists] at htrue
      cases htrue
    have hapex : table.Reaches input.zone.apex.labels := by
      obtain ⟨row, hrow, howner⟩ := h.mem_owners_iff.mp h.apex_mem_owners
      exact ⟨row, hrow, howner ▸ suffix_refl _⟩
    have hne : input.zone.apex.labels ≠ query.qname := fun heq => hreaches (heq ▸ hapex)
    have hclosest := isClosestEncloser h.sound hplain.zeros ⟨_, hquery.inZone, hne, hapex⟩
    set encloser := closestEncloser table query.qname with hencloser
    have hwildFree : Free 0 (wildcard encloser) := by
      refine forall_mem_cons.mpr ⟨by decide, fun label hlabel => ?_⟩
      exact hplain.zeros label (hclosest.above.subset hlabel)
    have hwildZone : input.zone.apex.labels <:+ wildcard encloser :=
      (hclosest.longest _ hquery.inZone hne hapex).trans (suffix_cons _ _)
    have hwildMissing : wildcard encloser ∉ h.owners := by
      intro hmem
      obtain ⟨row, hrow, howner⟩ := h.mem_owners_iff.mp hmem
      have hvalid := (h.sound row hrow).valid_labels [42] (howner ▸ mem_cons_self)
      exact absurd hvalid (by decide)
    obtain ⟨row, next, hfound, hrow, -, hset, hcovers⟩ :=
      h.covers_of_coveringRow hplain.zeros hquery.inZone (h.not_owner_of_not_reaches hreaches)
    obtain ⟨row', next', hfound', hrow', -, hset', hcovers'⟩ :=
      h.covers_of_coveringRow hwildFree hwildZone hwildMissing
    refine ⟨encloser, row, _, next, _, row', _, next', _, hclosest, h.isNsec hrow hset, hcovers,
      h.isNsec hrow' hset', hcovers', ?_⟩
    rw [nxdomainAuthority_eq h.sound, hdo, if_pos rfl, wildcardRow, ← hencloser, hfound,
      hfound'] at hauthority
    rw [hreply, ← Except.ok.inj hauthority]
    by_cases hsame : row = row'
    · rw [if_pos hsame, if_pos (by rw [hsame])]
      rfl
    · have hstored : ¬Option.map Row.toStored (some row) = Option.map Row.toStored (some row') :=
        fun heq => hsame (IsNsec.eq_of_toStored_eq h.sound (h.isNsec hrow hset)
          (h.isNsec hrow' hset') (Option.some.inj heq))
      rw [if_neg hsame, if_neg hstored]
      rfl

end Published

/-- A published zone proves what it denies.  Its chain is one cycle through all
owners in canonical order with the types answered at each.  A question without data
gets the name's own record, lacking the type, or the record before an empty
non-terminal, leading below it.  A name that does not exist gets the records that
pass over it and over the wildcard at its closest encloser. -/
theorem denials_provable (hpublish : publish lib parseIp sign input = some table) :
    (∃ (owners : List Name) (types : Name → List Nat),
      owners.Pairwise (fun a b => orderKey a < orderKey b) ∧
      (∀ name, name ∈ owners ↔ ∃ row ∈ table.rows, row.rrset.owner = name) ∧
      (table.rows.map Row.rrset).filter (·.rtype = typeNsec) =
        (successors owners).map (fun (owner, next) =>
          ⟨owner, typeNsec, ttlData, [nsecRdata next (types owner)]⟩) ∧
      ∀ query : Query, query.qname ∈ owners → query.opcode = 0 → query.qclass = classIn →
        query.doBit = true →
        (bitmapHas (typeBitmap (types query.qname)) query.qtype = true ↔
          query.qtype = typeRrsig ∨
            (answerReply (some table) input.zone.apex.labels query).answers.count ≠ 0)) ∧
    ∀ query : Query, query.Asks input.zone.apex.labels →
      (∀ label ∈ query.qname, validLabel label = true) → query.qtype ≠ typeRrsig →
      query.doBit = true →
      ((answerReply (some table) input.zone.apex.labels query).rcode = rcodeNoerror →
        (answerReply (some table) input.zone.apex.labels query).answers.count = 0 →
        ∃ row owner next types, table.IsNsec row owner next types ∧
          (answerReply (some table) input.zone.apex.labels query).authority =
            (rowSection (soaRow table input.zone.apex.labels) true).append
              (withSig row.toStored true) ∧
          ((owner = query.qname ∧ bitmapHas (typeBitmap types) query.qtype = false) ∨
            ((∀ row' ∈ table.rows, row'.rrset.owner ≠ query.qname) ∧
              orderKey owner < orderKey query.qname ∧ query.qname <:+ next ∧
              next ≠ query.qname))) ∧
      ((answerReply (some table) input.zone.apex.labels query).rcode = rcodeNxdomain →
        ∃ encloser row owner next types row' owner' next' types',
          IsClosestEncloser table query.qname encloser ∧
          table.IsNsec row owner next types ∧
          Covers orderKey owner next (orderKey query.qname) ∧
          table.IsNsec row' owner' next' types' ∧
          Covers orderKey owner' next' (orderKey (wildcard encloser)) ∧
          (answerReply (some table) input.zone.apex.labels query).authority =
            (rowSection (soaRow table input.zone.apex.labels) true).append
              (if row = row' then withSig row.toStored true
              else (withSig row.toStored true).append (withSig row'.toStored true))) := by
  obtain ⟨published⟩ := published_of_publish hpublish
  refine ⟨⟨published.owners, typesAt published.data, ownersInOrder_pairwise _,
    fun name => published.mem_owners_iff, published.filter_nsec, ?_⟩, ?_⟩
  · intro query howner hopcode hclass hdo
    rw [published.bitmapHas_iff howner, published.answers_iff_holds hopcode hclass hdo howner]
  · intro query hquery hlabels hrrsig hdo
    have hplain := plain_of_valid hlabels
    exact ⟨published.nodata_denied hquery hplain hrrsig hdo,
      published.nxdomain_denied hquery hplain hdo⟩

/-- The name of a host that does not exist, asked for with its signatures. -/
def absentQuery : Query :=
  ⟨1, 0, false, [utf8 "zz", utf8 "example"], typeA, classIn, some ⟨1232, true⟩⟩

theorem denials_provable_host :
    ∃ table, publish ed25519 hostIp (fun _ => []) hostInput = some table ∧
      (answerReply (some table) hostInput.zone.apex.labels absentQuery).rcode = rcodeNxdomain ∧
      ∃ encloser row owner next types,
        IsClosestEncloser table absentQuery.qname encloser ∧
        table.IsNsec row owner next types ∧
        Covers orderKey owner next (orderKey absentQuery.qname) := by
  have hrcode : (hostTable.any fun table =>
      (answerReply (some table) hostInput.zone.apex.labels absentQuery).rcode =
        rcodeNxdomain) = true := by
    decide +kernel
  obtain ⟨table, htable, hrcode⟩ := (Option.any_eq_true _ _).mp hrcode
  have hrcode := of_decide_eq_true hrcode
  have hlabels : ∀ label ∈ absentQuery.qname, validLabel label = true := by decide +kernel
  obtain ⟨-, hdenials⟩ := denials_provable htable
  obtain ⟨-, hnxdomain⟩ := hdenials absentQuery
    ⟨rfl, rfl, by decide, suffix_cons _ _⟩ hlabels (by decide) rfl
  obtain ⟨encloser, row, owner, next, types, _, _, _, _, hclosest, hnsec, hcovers, -⟩ :=
    hnxdomain hrcode
  exact ⟨table, htable, hrcode, encloser, row, owner, next, types, hclosest, hnsec, hcovers⟩

end Published

end Synch.Zone
