import Synch.Provider.Diff

/-!
# Reconciliation converges

A pass deletes nothing that is wanted or withheld, leaves every wanted record as it
is wanted, and leaves nothing for the next pass to do.  The next pass may see the
records under other handles and in another order.
-/

namespace Synch.Provider

open List

variable {desired : List Record} {existing : List Existing} {withheld : List Record}
  {adopted : Bool}

theorem Record.Matches.symm {a b : Record} (h : a.Matches b) : b.Matches a :=
  ⟨h.1.symm, h.2.symm⟩

/-- No two wanted records have one name and value. -/
def Distinct (desired : List Record) : Prop :=
  (desired.map fun d => (d.name, d.value)).Nodup

theorem Distinct.eq_of_matches (h : Distinct desired) {a b : Record} (ha : a ∈ desired)
    (hb : b ∈ desired) (hmatches : a.Matches b) : a = b :=
  inj_on_of_nodup_map h ha hb (by rw [hmatches.1, hmatches.2])

/-! ## What a pass leaves -/

variable {e : Existing} {d : Record}

theorem of_mem_replacements (h : (e, d) ∈ replacements desired existing) :
    d ∈ desired ∧ e.record.Matches d ∧ d.ttl ≠ e.record.ttl := by
  obtain ⟨e', -, hmap⟩ := mem_filterMap.mp h
  obtain ⟨d', hfind, hpair⟩ := Option.map_eq_some_iff.mp hmap
  cases hpair
  have hwanted := find?_some hfind
  rw [decide_eq_true_eq] at hwanted
  exact ⟨mem_of_find?_eq_some hfind, hwanted⟩

theorem exists_mem_replacements (he : e ∈ existing) (hd : d ∈ desired)
    (hmatches : e.record.Matches d) (httl : d.ttl ≠ e.record.ttl) :
    ∃ d', (e, d') ∈ replacements desired existing := by
  have hsome : (desired.find? fun d => e.record.Matches d ∧ d.ttl ≠ e.record.ttl).isSome :=
    find?_isSome.mpr ⟨d, hd, decide_eq_true ⟨hmatches, httl⟩⟩
  obtain ⟨d', hfind⟩ := Option.isSome_iff_exists.mp hsome
  exact ⟨d', mem_filterMap.mpr ⟨e, he, by rw [hfind]; rfl⟩⟩

/-- A record stays as it is, or becomes the wanted one that replaces it. -/
theorem updated_cases (e : Existing) :
    ((changesFor desired existing withheld).updated e = e.record ∧
      ∀ d, (e, d) ∉ replacements desired existing) ∨
    (e, (changesFor desired existing withheld).updated e) ∈ replacements desired existing := by
  unfold Changes.updated
  split
  · rename_i e' d' hfind
    have hfirst : e' = e := by simpa using find?_some hfind
    subst hfirst
    exact .inr (mem_of_find?_eq_some hfind)
  · rename_i hfind
    refine .inl ⟨rfl, fun d hd => ?_⟩
    exact find?_eq_none.mp hfind (e, d) hd (decide_eq_true rfl)

/-- A record that stays becomes the wanted one it matches. -/
theorem updated_of_matches (he : e ∈ existing) (hdistinct : Distinct desired) (hd : d ∈ desired)
    (hmatches : e.record.Matches d) : (changesFor desired existing withheld).updated e = d := by
  obtain ⟨hsame, hnone⟩ | hreplaced := updated_cases e
  · rw [hsame]
    apply hmatches.eq_of_ttl
    by_contra httl
    obtain ⟨d', hd'⟩ := exists_mem_replacements he hd hmatches httl
    exact hnone d' hd'
  · obtain ⟨hwanted, hmatches', -⟩ := of_mem_replacements hreplaced
    exact hdistinct.eq_of_matches hwanted hd
      ⟨hmatches'.1.symm.trans hmatches.1, hmatches'.2.symm.trans hmatches.2⟩

/-- A record that matches none stays as it is. -/
theorem updated_of_foreign (hforeign : ∀ d ∈ desired, ¬e.record.Matches d) :
    (changesFor desired existing withheld).updated e = e.record := by
  obtain ⟨hsame, -⟩ | hreplaced := updated_cases e
  · exact hsame
  · obtain ⟨hwanted, hmatches, -⟩ := of_mem_replacements hreplaced
    exact absurd hmatches (hforeign _ hwanted)

theorem mem_creations_iff :
    d ∈ creations desired existing ↔ d ∈ desired ∧ ∀ e ∈ existing, ¬e.record.Matches d := by
  simp [creations, mem_insertionSort]

theorem mem_delete_iff :
    e ∈ (changesFor desired existing withheld).delete ↔
      e ∈ foreignOf desired existing ∧
        isShielded (foreignOf desired existing) desired withheld e = false := by
  simp [changesFor, deletable]

theorem not_withheld_of_delete (he : e ∈ (changesFor desired existing withheld).delete) :
    ∀ w ∈ withheld, ¬e.record.Matches w := by
  intro w hw hmatches
  have hshield := (mem_delete_iff.mp he).2
  simp only [isShielded, Bool.or_eq_false_iff, any_eq_false] at hshield
  exact hshield.1.2 w hw (decide_eq_true hmatches.symm)

/-- Every wanted record is there, as it is wanted. -/
theorem mem_applyTo_of_desired (hdistinct : Distinct desired) (hd : d ∈ desired) :
    d ∈ applyTo existing (changesFor desired existing withheld) := by
  by_cases hheld : ∃ e ∈ existing, e.record.Matches d
  · obtain ⟨e, he, hmatches⟩ := hheld
    have hkept : e ∉ (changesFor desired existing withheld).delete := fun hdelete =>
      (mem_foreignOf_iff.mp (mem_delete_iff.mp hdelete).1).2 d hd hmatches
    refine mem_append_left _ (mem_map.mpr ⟨e, ?_, ?_⟩)
    · exact mem_filter.mpr ⟨he, decide_eq_true hkept⟩
    · exact updated_of_matches he hdistinct hd hmatches
  · refine mem_append_right _ (mem_creations_iff.mpr ⟨hd, fun e he hmatches => ?_⟩)
    exact hheld ⟨e, he, hmatches⟩

/-- A record that matches a wanted one is that one. -/
theorem eq_of_mem_applyTo (hdistinct : Distinct desired) {record : Record}
    (hrecord : record ∈ applyTo existing (changesFor desired existing withheld))
    (hd : d ∈ desired) (hmatches : record.Matches d) : record = d := by
  obtain hkept | hcreated := mem_append.mp hrecord
  · obtain ⟨e, he, rfl⟩ := mem_map.mp hkept
    by_cases hwanted : ∃ d' ∈ desired, e.record.Matches d'
    · obtain ⟨d', hd', hmatches'⟩ := hwanted
      have hupdated : (changesFor desired existing withheld).updated e = d' :=
        updated_of_matches (mem_of_mem_filter he) hdistinct hd' hmatches'
      rw [hupdated] at hmatches ⊢
      exact hdistinct.eq_of_matches hd' hd hmatches
    · have hsame : (changesFor desired existing withheld).updated e = e.record :=
        updated_of_foreign fun d' hd' h => hwanted ⟨d', hd', h⟩
      rw [hsame] at hmatches
      exact absurd ⟨d, hd, hmatches⟩ hwanted
  · exact hdistinct.eq_of_matches (mem_creations_iff.mp hcreated).1 hd hmatches

/-! ## The next pass -/

/-- A record that matches none of the wanted ones. -/
def isForeign (desired : List Record) (record : Record) : Bool :=
  !desired.any fun d => record.Matches d

theorem map_foreignOf (desired : List Record) (existing : List Existing) :
    (foreignOf desired existing).map Existing.record =
      (existing.map Existing.record).filter (isForeign desired) := by
  rw [filter_map]
  rfl

/-- The foreign records that stay are the shielded ones. -/
theorem filter_applyTo (hdistinct : Distinct desired) :
    (applyTo existing (changesFor desired existing withheld)).filter (isForeign desired) =
      ((foreignOf desired existing).filter
        (isShielded (foreignOf desired existing) desired withheld)).map Existing.record := by
  have hwanted : ∀ {d}, d ∈ desired → isForeign desired d = false := by
    intro d hd
    simp only [isForeign, Bool.not_eq_false', any_eq_true]
    exact ⟨d, hd, decide_eq_true ⟨rfl, rfl⟩⟩
  have hcreate : (creations desired existing).filter (isForeign desired) = [] := by
    refine filter_eq_nil_iff.mpr fun d hd => ?_
    rw [hwanted (mem_creations_iff.mp hd).1]
    exact Bool.false_ne_true
  -- what a record becomes is foreign if it was, and then it is the same
  have hupdated : ∀ e ∈ existing,
      isForeign desired ((changesFor desired existing withheld).updated e) =
        isForeign desired e.record := by
    intro e he
    by_cases hmatches : ∃ d ∈ desired, e.record.Matches d
    · obtain ⟨d, hd, hmatches⟩ := hmatches
      rw [updated_of_matches he hdistinct hd hmatches, hwanted hd, eq_comm]
      simp only [isForeign, Bool.not_eq_false', any_eq_true]
      exact ⟨d, hd, decide_eq_true hmatches⟩
    · rw [updated_of_foreign fun d hd hd' => hmatches ⟨d, hd, hd'⟩]
  have hkept : ((existing.filter fun e => e ∉ (changesFor desired existing withheld).delete).filter
      fun e => isForeign desired e.record) =
      (foreignOf desired existing).filter
        (isShielded (foreignOf desired existing) desired withheld) := by
    rw [filter_comm]
    refine filter_congr fun e he => ?_
    rw [Bool.eq_iff_iff, decide_eq_true_eq, mem_delete_iff, not_and, Bool.not_eq_false]
    exact ⟨fun h => h he, fun h _ => h⟩
  rw [applyTo, filter_append, filter_map]
  change List.map _ (List.filter (fun e => isForeign desired
    ((changesFor desired existing withheld).updated e)) _) ++
      (creations desired existing).filter (isForeign desired) = _
  rw [hcreate, append_nil, ← hkept, filter_congr fun e he => hupdated e (mem_of_mem_filter he)]
  refine map_congr_left fun e he => updated_of_foreign fun d hd hmatches => ?_
  have hforeign := (mem_filter.mp he).2
  simp only [isForeign, Bool.not_eq_true', any_eq_false] at hforeign
  exact hforeign d hd (decide_eq_true hmatches)

/-- How many of these records are about a member. -/
def identityCount (id : String × List Char × List Char) (records : List Record) : Nat :=
  records.countP fun r => memberIdentity r = some id

theorem length_filter_identity (id : String × List Char × List Char) (foreign : List Existing) :
    (foreign.filter fun other => memberIdentity other.record = some id).length =
      identityCount id (foreign.map Existing.record) := by
  rw [identityCount, countP_map, countP_eq_length_filter]
  rfl

theorem isShielded_iff {foreign : List Existing} :
    isShielded foreign desired withheld e = true ↔
      ((∀ d ∈ desired, isProofName d.name = false) ∧ isProofName e.record.name = true) ∨
      (∃ w ∈ withheld, w.Matches e.record) ∨
      ∃ id, memberIdentity e.record = some id ∧
        (∃ w ∈ withheld, memberIdentity w = some id) ∧
        identityCount id (foreign.map Existing.record) = 1 := by
  unfold isShielded
  cases hid : memberIdentity e.record with
  | none => simp
  | some id => simp [length_filter_identity, or_assoc]

/-- A shielded record stays shielded among the shielded ones. -/
theorem isShielded_of_perm {foreign rest : List Existing} (hrest : (rest.map Existing.record).Perm
      ((foreign.filter (isShielded foreign desired withheld)).map Existing.record)) :
    ∀ e ∈ rest, isShielded rest desired withheld e = true := by
  intro e he
  have hmem : e.record ∈ rest.map Existing.record := mem_map_of_mem he
  obtain ⟨kept, hkept, hrecord⟩ := mem_map.mp (hrest.mem_iff.mp hmem)
  have hshield := isShielded_iff.mp (mem_filter.mp hkept).2
  rw [hrecord] at hshield
  refine isShielded_iff.mpr (hshield.imp_right (Or.imp_right ?_))
  -- only the shield by identity looks at the other records, which have become fewer
  rintro ⟨id, hid, hwithheld, hcount⟩
  refine ⟨id, hid, hwithheld, Nat.le_antisymm ?_ ?_⟩
  · rw [identityCount, hrest.countP_eq, ← hcount]
    exact (filter_sublist.map _).countP_le
  · exact countP_pos_iff.mpr ⟨e.record, hmem, decide_eq_true hid⟩

/-! ## The fixed point -/

/-- The owning marker is wanted, so an owned zone stays owned. -/
theorem isOwned_of_desired (howned : isOwned desired existing adopted = true)
    {existing' : List Existing} (hpresent : ∀ d ∈ desired, ∃ e ∈ existing', e.record = d) :
    isOwned desired existing' adopted = true := by
  unfold isOwned at howned ⊢
  rw [Bool.or_eq_true] at howned ⊢
  refine howned.imp_right fun hmarker => ?_
  simp only [any_eq_true, decide_eq_true_eq] at hmarker ⊢
  obtain ⟨e, -, -, hours⟩ := hmarker
  obtain ⟨d, hd, -⟩ := mem_map.mp hours
  obtain ⟨hd, hvalue⟩ := mem_filter.mp hd
  obtain ⟨e', he', rfl⟩ := hpresent d hd
  refine ⟨e', he', (of_decide_eq_true hvalue).1, mem_map.mpr ⟨_, ?_, rfl⟩⟩
  exact mem_filter.mpr ⟨hd, hvalue⟩

theorem creations_eq_nil (hpresent : ∀ d ∈ desired, ∃ e ∈ existing, e.record = d) :
    creations desired existing = [] := by
  refine eq_nil_iff_forall_not_mem.mpr fun d hd => ?_
  obtain ⟨hd, habsent⟩ := mem_creations_iff.mp hd
  obtain ⟨e, he, rfl⟩ := hpresent d hd
  exact habsent e he ⟨rfl, rfl⟩

theorem replacements_eq_nil
    (hcurrent : ∀ e ∈ existing, ∀ d ∈ desired, e.record.Matches d → e.record = d) :
    replacements desired existing = [] := by
  refine filterMap_eq_nil_iff.mpr fun e he => ?_
  rw [Option.map_eq_none_iff, find?_eq_none]
  intro d hd hreplaced
  obtain ⟨hmatches, httl⟩ := of_decide_eq_true hreplaced
  exact httl (congrArg Record.ttl (hcurrent e he d hd hmatches).symm)

section Applied

variable {existing' : List Existing}
  (hdistinct : Distinct desired)
  (happlied : (existing'.map Existing.record).Perm
    (applyTo existing (changesFor desired existing withheld)))

include hdistinct happlied

theorem exists_of_desired : ∀ d ∈ desired, ∃ e ∈ existing', e.record = d := by
  intro d hd
  exact mem_map.mp (happlied.mem_iff.mpr (mem_applyTo_of_desired hdistinct hd))

/-- What is foreign after a pass is what it shielded. -/
theorem foreignOf_applied :
    ((foreignOf desired existing').map Existing.record).Perm
      (((foreignOf desired existing).filter
        (isShielded (foreignOf desired existing) desired withheld)).map Existing.record) := by
  rw [map_foreignOf, ← filter_applyTo hdistinct]
  exact happlied.filter _

/-- The pass over what a pass left finds nothing to do. -/
theorem changesFor_applied : changesFor desired existing' withheld = {} := by
  have hcreate : creations desired existing' = [] :=
    creations_eq_nil (exists_of_desired hdistinct happlied)
  have hreplace : replacements desired existing' = [] := by
    apply replacements_eq_nil
    intro e he d hd hmatches
    have hrecord := happlied.mem_iff.mp (mem_map_of_mem he)
    exact eq_of_mem_applyTo hdistinct hrecord hd hmatches
  have hdelete : deletable (foreignOf desired existing') desired withheld = [] := by
    refine filter_eq_nil_iff.mpr fun e he => ?_
    rw [isShielded_of_perm (foreignOf_applied hdistinct happlied) e he]
    exact Bool.false_ne_true
  rw [changesFor, hcreate, hreplace, hdelete]

theorem foreignOf_applied_eq_nil (hnone : foreignOf desired existing = []) :
    foreignOf desired existing' = [] := by
  have hperm := foreignOf_applied hdistinct happlied
  rw [hnone] at hperm
  exact map_eq_nil_iff.mp hperm.eq_nil

end Applied

/-- Reconciliation is refused where the zone is nobody's and holds a foreign record.
Otherwise it deletes nothing wanted or withheld, leaves what is wanted as it is
wanted, and the next pass has nothing to do. -/
theorem diffGated_converges
    (desired : List Record)
    (hdistinct : (desired.map fun d => (d.name, d.value)).Nodup)
    (existing : List Existing)
    (withheld : List Record)
    (adopted : Bool) :
    (isOwned desired existing adopted = false →
      foreignOf desired existing ≠ [] →
      ∃ conflict, diffGated desired existing withheld adopted = .error conflict) ∧
    ∀ changes, diffGated desired existing withheld adopted = .ok changes →
      (∀ e ∈ changes.delete, ∀ record ∈ desired ++ withheld, ¬e.record.Matches record) ∧
      (∀ d ∈ desired, d ∈ applyTo existing changes) ∧
      ∀ existing' : List Existing,
        (existing'.map Existing.record).Perm (applyTo existing changes) →
        diffGated desired existing' withheld adopted = .ok {} := by
  obtain ⟨hallowed, hok⟩ | ⟨-, -, conflict, herror⟩ :=
    @diffGated_cases desired existing withheld adopted
  · refine ⟨fun howned hforeign => ?_, fun changes hchanges => ?_⟩
    · rw [howned] at hallowed
      exact (hallowed.elim Bool.false_ne_true hforeign).elim
    · rw [hok, Except.ok.injEq] at hchanges
      subst hchanges
      refine ⟨fun e he record hrecord => ?_, fun d => mem_applyTo_of_desired hdistinct,
        fun existing' happlied => ?_⟩
      · obtain hdesired | hwithheld := mem_append.mp hrecord
        · exact (mem_foreignOf_iff.mp (mem_delete_iff.mp he).1).2 record hdesired
        · exact not_withheld_of_delete he record hwithheld
      · have hallowed' : isOwned desired existing' adopted = true ∨
            foreignOf desired existing' = [] :=
          hallowed.imp
            (fun howned => isOwned_of_desired howned (exists_of_desired hdistinct happlied))
            (foreignOf_applied_eq_nil hdistinct happlied)
        rw [← changesFor_applied hdistinct happlied]
        exact diffGated_of_allowed hallowed'
  · rw [herror]
    exact ⟨fun _ _ => ⟨conflict, rfl⟩, fun changes hchanges => nomatch hchanges⟩

/-- An owned zone with a record to create, one to retime and one to remove. -/
theorem diffGated_converges_owned :
    let marker : Record := ⟨"_synchronicity-owner.a", .txt, 60, ownerValue⟩
    let member : Record := ⟨"m.a", .txt, 60, "v=sync1 nk=k"⟩
    let held : List Existing :=
      [⟨"1", { marker with ttl := 30 }⟩, ⟨"2", ⟨"x.a", .txt, 60, "y"⟩⟩]
    (∃ changes, diffGated [marker, member] held [] false = .ok changes ∧
      changes.create = [member] ∧ changes.replace.length = 1 ∧ changes.delete.length = 1) ∧
    ∀ existing' : List Existing,
      (existing'.map Existing.record).Perm [marker, member] →
      diffGated [marker, member] existing' [] false = .ok {} := by
  intro marker member held
  have hchanges : diffGated [marker, member] held [] false =
      .ok ⟨[member], [(⟨"1", { marker with ttl := 30 }⟩, marker)],
        [⟨"2", ⟨"x.a", .txt, 60, "y"⟩⟩]⟩ := by
    decide +kernel
  refine ⟨⟨_, hchanges, rfl, rfl, rfl⟩, fun existing' happlied => ?_⟩
  refine ((diffGated_converges [marker, member] (by decide) held [] false).2 _ hchanges).2.2
    existing' ?_
  have happly : applyTo held ⟨[member], [(⟨"1", { marker with ttl := 30 }⟩, marker)],
      [⟨"2", ⟨"x.a", .txt, 60, "y"⟩⟩]⟩ = [marker, member] := by
    decide +kernel
  rw [happly]
  exact happlied

end Synch.Provider
