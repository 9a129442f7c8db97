import Synch.Tree.Unified

/-!
# Coherence of version sets

The order over entries and the order over versions need not name one winner.  A
version takes its time and its name from different attestors, and neither order
reads the kind.  So where versions of two kinds tie in time, content and target, an
older attestor with a greater name lifts the wrong version.  This module says
exactly when that does not happen.
-/

namespace Synch.Tree

open List Synch.Records Synch.Support
open VersionSet (fromEntries)

/-! ## What the grouping keeps -/

variable (git : Option GitClass)

def Asserting (rows : List EntryRow) (i : Identity) : Set EntryRow :=
  {row | row ∈ rows ∧ identity git row = i}

structure Grouped
    (git : Option GitClass) (rows : List EntryRow) (versions : List Version) :
    Prop where
  covered : ∀ row ∈ rows, ∃ v ∈ versions, identityOfVersion git v = identity git row
  latest : ∀ v ∈ versions,
    IsGreatest (EntryRow.mtimeNs '' Asserting git rows (identityOfVersion git v)) v.mtimeNs
  attestors : ∀ v ∈ versions, ∀ origin, origin ∈ v.attestors ↔
    origin ∈ EntryRow.origin '' Asserting git rows (identityOfVersion git v)

section Grouping

variable {git : Option GitClass} {rows : List EntryRow} {entry : EntryRow} {i : Identity}

theorem asserting_append_of_ne (h : identity git entry ≠ i) :
    Asserting git (rows ++ [entry]) i = Asserting git rows i := by
  ext row
  simp only [Asserting, mem_append, mem_singleton, Set.mem_ofPred_eq, or_and_right]
  refine or_iff_left ?_
  rintro ⟨rfl, hi⟩
  exact h hi

theorem asserting_append_of_eq (h : identity git entry = i) :
    Asserting git (rows ++ [entry]) i = insert entry (Asserting git rows i) := by
  ext row
  simp only [Asserting, mem_append, mem_singleton, Set.mem_ofPred_eq, or_and_right,
    Set.mem_insert_iff, or_comm (a := row = entry)]
  refine or_congr_right (and_iff_left_of_imp ?_)
  rintro rfl
  exact h

theorem asserting_eq_empty {versions : List Version} (hgrouped : Grouped git rows versions)
    (hnone : ∀ v ∈ versions, identityOfVersion git v ≠ i) : Asserting git rows i = ∅ := by
  apply Set.eq_empty_of_forall_notMem
  rintro row ⟨hrow, rfl⟩
  obtain ⟨v, hv, hi⟩ := hgrouped.covered row hrow
  exact hnone v hv hi

end Grouping

/-- Versions of distinct identities that group the rows so far.  This is the
invariant of the loop that reads the rows. -/
structure GroupedDistinct
    (git : Option GitClass) (rows : List EntryRow) (versions : List Version) : Prop
    extends Grouped git rows versions where
  distinct : versions.Pairwise fun v w => identityOfVersion git v ≠ identityOfVersion git w

section Step

variable {git : Option GitClass} {rows : List EntryRow} {versions : List Version}
variable {entry : EntryRow}

theorem groupedDistinct_push (h : GroupedDistinct git rows versions)
    (hnone : ∀ v ∈ versions, identityOfVersion git v ≠ identity git entry) :
    GroupedDistinct git (rows ++ [entry]) (versions ++ [Version.ofEntry entry]) := by
  have hnew : Asserting git (rows ++ [entry]) (identity git entry) = {entry} := by
    rw [asserting_append_of_eq rfl, asserting_eq_empty h.toGrouped hnone, insert_empty_eq]
  have hold : ∀ v ∈ versions,
      Asserting git (rows ++ [entry]) (identityOfVersion git v) =
        Asserting git rows (identityOfVersion git v) :=
    fun v hv => asserting_append_of_ne (hnone v hv).symm
  refine ⟨⟨?_, ?_, ?_⟩, ?_⟩
  · intro row hrow
    rcases mem_append.mp hrow with hrow | hrow
    · obtain ⟨v, hv, hi⟩ := h.covered row hrow
      exact ⟨v, mem_append_left _ hv, hi⟩
    · obtain rfl := mem_singleton.mp hrow
      exact ⟨Version.ofEntry row, by simp, by simp⟩
  · intro v hv
    rcases mem_append.mp hv with hv | hv
    · rw [hold v hv]
      exact h.latest v hv
    · obtain rfl := mem_singleton.mp hv
      rw [identityOfVersion_ofEntry, hnew, Set.image_singleton]
      exact isGreatest_singleton
  · intro v hv origin
    rcases mem_append.mp hv with hv | hv
    · rw [hold v hv]
      exact h.attestors v hv origin
    · obtain rfl := mem_singleton.mp hv
      rw [identityOfVersion_ofEntry, hnew, Set.image_singleton]
      simp [Version.ofEntry]
  · rw [pairwise_append]
    refine ⟨h.distinct, pairwise_singleton _ _, fun v hv w hw => ?_⟩
    obtain rfl := mem_singleton.mp hw
    rw [identityOfVersion_ofEntry]
    exact hnone v hv

theorem groupedDistinct_attest {front back : List Version} {version : Version}
    (h : GroupedDistinct git rows (front ++ version :: back))
    (hsame : identityOfVersion git version = identity git entry) :
    GroupedDistinct git (rows ++ [entry]) (front ++ version.attest entry :: back) := by
  have hmem : version ∈ front ++ version :: back := by simp
  have hnew :
      Asserting git (rows ++ [entry]) (identityOfVersion git version) =
        insert entry (Asserting git rows (identityOfVersion git version)) :=
    asserting_append_of_eq hsame.symm
  -- A version other than the one attested has another identity, hence its old rows.
  have hother : ∀ v, v ∈ front ∨ v ∈ back →
      v ∈ front ++ version :: back ∧
        Asserting git (rows ++ [entry]) (identityOfVersion git v) =
          Asserting git rows (identityOfVersion git v) := by
    intro v hv
    have hdistinct := pairwise_append.mp h.distinct
    have hne : identityOfVersion git v ≠ identityOfVersion git version := by
      rcases hv with hv | hv
      · exact hdistinct.2.2 v hv version (by simp)
      · exact ((pairwise_cons.mp hdistinct.2.1).1 v hv).symm
    refine ⟨?_, asserting_append_of_ne (hsame ▸ hne.symm)⟩
    rcases hv with hv | hv <;> simp [hv]
  have hcases : ∀ v ∈ front ++ version.attest entry :: back,
      v = version.attest entry ∨ v ∈ front ∨ v ∈ back := by
    intro v hv
    simp only [mem_append, mem_cons] at hv
    tauto
  refine ⟨⟨?_, ?_, ?_⟩, ?_⟩
  · intro row hrow
    rcases mem_append.mp hrow with hrow | hrow
    · obtain ⟨v, hv, hi⟩ := h.covered row hrow
      rcases mem_append.mp hv with hv | hv
      · exact ⟨v, by simp [hv], hi⟩
      · rcases mem_cons.mp hv with rfl | hv
        · exact ⟨v.attest entry, by simp, hi⟩
        · exact ⟨v, by simp [hv], hi⟩
    · obtain rfl := mem_singleton.mp hrow
      exact ⟨version.attest row, by simp, hsame⟩
  · intro v hv
    rcases hcases v hv with rfl | hv
    · have hmax : (version.attest entry).mtimeNs = max entry.mtimeNs version.mtimeNs :=
        max_comm _ _
      rw [identityOfVersion_attest, hnew, Set.image_insert_eq, hmax]
      exact (h.latest version hmem).insert _
    · obtain ⟨hv, hrows⟩ := hother v hv
      rw [hrows]
      exact h.latest v hv
  · intro v hv origin
    rcases hcases v hv with rfl | hv
    · have hold := h.attestors version hmem origin
      rw [identityOfVersion_attest, hnew, Set.image_insert_eq, Set.mem_insert_iff, ← hold]
      simp [Version.attest, or_comm]
    · obtain ⟨hv, hrows⟩ := hother v hv
      rw [hrows]
      exact h.attestors v hv origin
  · have hdistinct := h.distinct
    simp only [pairwise_append, pairwise_cons, mem_cons] at hdistinct ⊢
    obtain ⟨hfront, ⟨hversion, hback⟩, hcross⟩ := hdistinct
    refine ⟨hfront, ⟨hversion, hback⟩, fun v hv w hw => ?_⟩
    rcases hw with rfl | hw
    · exact hcross v hv version (.inl rfl)
    · exact hcross v hv w (.inr hw)

theorem groupedDistinct_addEntry (h : GroupedDistinct git rows versions) :
    GroupedDistinct git (rows ++ [entry]) (addEntry git versions entry) := by
  obtain ⟨hnone, hadd⟩ | ⟨front, version, back, rfl, hsame, hadd⟩ :=
    addEntry_cases git versions entry
  · rw [hadd]
    exact groupedDistinct_push h hnone
  · rw [hadd]
    exact groupedDistinct_attest h hsame

end Step

/-- The loop groups the rows it has read. -/
theorem grouped_groupEntries (git : Option GitClass) (rows : List EntryRow) :
    Grouped git rows (groupEntries git rows) := by
  suffices h : GroupedDistinct git rows (groupEntries git rows) from h.toGrouped
  induction rows using reverseRecOn with
  | nil => exact ⟨⟨by simp, by simp [groupEntries], by simp [groupEntries]⟩, .nil⟩
  | append_singleton rows entry ih =>
    rw [groupEntries, foldl_append]
    exact groupedDistinct_addEntry ih

/-! ## The two rankings -/

/-- A kind has a part in the choice: a deletion only where deletions compete. -/
def Runs (kind : EntryKind) : Prop :=
  deletionIsAnUpdate git = true ∨ kind ≠ .tombstone

instance (git : Option GitClass) (kind : EntryKind) : Decidable (Runs git kind) :=
  inferInstanceAs (Decidable (_ ∨ _))

/-- The rows that the choice is made among. -/
def Running (rows : List EntryRow) : Set EntryRow :=
  {row | row ∈ rows ∧ Runs git row.kind}

/-- The greatest of the versions that the choice is made among. -/
def VersionSet.rankedFirst (set : VersionSet) : Option Version :=
  (set.versions.filter fun v => Runs set.git v.kind).getLast?

theorem getLast?_filter_spec {α κ : Type*} [LinearOrder κ] {key : α → κ} {p : α → Bool} {l : List α}
    {a : α} (hsorted : l.Pairwise fun a b => key a ≤ key b) (h : (l.filter p).getLast? = some a) :
    (a ∈ l ∧ p a = true) ∧ ∀ b ∈ l, p b = true → key b ≤ key a := by
  have hmem := mem_filter.mp (mem_of_getLast? h)
  refine ⟨hmem, fun b hb hpb => ?_⟩
  obtain ⟨front, hfront⟩ := getLast?_eq_some_iff.mp h
  have hpairs := hsorted.sublist (filter_sublist (p := p))
  rw [hfront, pairwise_append] at hpairs
  have hb := mem_filter.mpr ⟨hb, hpb⟩
  rw [hfront, mem_append, mem_singleton] at hb
  rcases hb with hb | rfl
  · exact hpairs.2.2 b hb a (by simp)
  · exact le_rfl

theorem exists_getLast?_filter {α : Type*} {p : α → Bool} {l : List α} {a : α} (ha : a ∈ l)
    (hp : p a = true) : ∃ b, (l.filter p).getLast? = some b := by
  have hmem := mem_filter.mpr ⟨ha, hp⟩
  exact Option.isSome_iff_exists.mp (getLast?_isSome.mpr (ne_nil_of_mem hmem))

section Ranks

variable {git : Option GitClass} {rows : List EntryRow} {now : Int}

theorem running_asserting {i : Identity} (hruns : Runs git i.1) :
    {row ∈ Running git rows | identity git row = i} = Asserting git rows i := by
  ext row
  simp only [Running, Asserting, Set.mem_ofPred_eq]
  constructor
  · rintro ⟨⟨hrow, -⟩, hi⟩
    exact ⟨hrow, hi⟩
  · rintro ⟨hrow, rfl⟩
    exact ⟨⟨hrow, by simpa using hruns⟩, rfl⟩

/-- A version of the grouping has some attestor, and its greatest one has a part in
its key. -/
theorem greatest_attestor {versions : List Version} {v : Version}
    (hgrouped : Grouped git rows versions) (hv : v ∈ versions) :
    IsGreatest (EntryRow.origin '' Asserting git rows (identityOfVersion git v))
      ((maxBy id v.attestors).getD "") := by
  obtain ⟨row, hrow, -⟩ := (hgrouped.latest v hv).1
  have hattests : row.origin ∈ v.attestors :=
    (hgrouped.attestors v hv row.origin).mpr ⟨row, hrow, rfl⟩
  cases hmax : maxBy id v.attestors with
  | none =>
    rw [(maxBy_eq_none_iff id).mp hmax] at hattests
    simp at hattests
  | some origin =>
    obtain ⟨hmem, hbound⟩ := maxBy_spec id hmax
    refine ⟨(hgrouped.attestors v hv origin).mp hmem, fun other hother => ?_⟩
    exact hbound other ((hgrouped.attestors v hv other).mpr hother)

theorem isGroupKey_versionKey {versions : List Version} {v : Version}
    (hgrouped : Grouped git rows versions) (hv : v ∈ versions) (hruns : Runs git v.kind) :
    IsGroupKey (readTime now) contentAndTarget EntryRow.origin (identity git)
      (Running git rows) (identityOfVersion git v) (versionKey git now v) := by
  have hrows :
      {row ∈ Running git rows | identity git row = identityOfVersion git v} =
        Asserting git rows (identityOfVersion git v) :=
    running_asserting (by simpa using hruns)
  refine ⟨rfl, ?_, ?_⟩
  · rw [hrows]
    have hmono : Monotone fun t : Int => min t now := fun a b hab => min_le_min_right now hab
    have hgreatest := hmono.map_isGreatest (hgrouped.latest v hv)
    rwa [Set.image_image] at hgreatest
  · rw [hrows]
    exact greatest_attestor hgrouped hv

end Ranks

/-! ## What a version set holds -/

section Sets

variable (space path : String) (rows : List EntryRow) (now : Int)

variable {v : Version} {row : EntryRow}

/-- The versions that the choice is made among are those of the grouping: a deletion
of a git object that is not retained had no part in it. -/
theorem mem_versions_iff (hruns : Runs (gitClass path) v.kind) :
    v ∈ (fromEntries space path rows now).versions ↔
      v ∈ groupEntries (gitClass path) (sortBy EntryRow.origin rows) := by
  simp only [fromEntries, mem_sortBy, retainVersions]
  split
  · next h =>
    have hlive : v.kind ≠ .tombstone := by
      rcases hruns with hruns | hruns
      · rw [h.1] at hruns
        exact absurd hruns (by decide)
      · exact hruns
    simp [mem_filter, Version.isTombstone, hlive]
  · rfl

theorem grouped_fromEntries :
    Grouped (gitClass path) rows (groupEntries (gitClass path) (sortBy EntryRow.origin rows)) := by
  have hgrouped := grouped_groupEntries (gitClass path) (sortBy EntryRow.origin rows)
  have hrows : ∀ i, Asserting (gitClass path) (sortBy EntryRow.origin rows) i =
      Asserting (gitClass path) rows i := by
    intro i
    ext row
    simp [Asserting, mem_sortBy]
  refine ⟨?_, ?_, ?_⟩
  · intro row hrow
    exact hgrouped.covered row ((mem_sortBy _).mpr hrow)
  · intro v hv
    rw [← hrows]
    exact hgrouped.latest v hv
  · intro v hv origin
    rw [← hrows]
    exact hgrouped.attestors v hv origin

theorem exists_version (hrow : row ∈ Running (gitClass path) rows) :
    ∃ v ∈ (fromEntries space path rows now).versions,
      Runs (gitClass path) v.kind ∧
        identityOfVersion (gitClass path) v = identity (gitClass path) row := by
  obtain ⟨v, hv, hi⟩ := (grouped_fromEntries path rows).covered row hrow.1
  have hkind : v.kind = row.kind := by
    simpa using congrArg Prod.fst hi
  have hruns : Runs (gitClass path) v.kind := hkind ▸ hrow.2
  exact ⟨v, (mem_versions_iff space path rows now hruns).mpr hv, hruns, hi⟩

theorem isGroupKey_of_mem_versions
    (hv : v ∈ (fromEntries space path rows now).versions)
    (hruns : Runs (gitClass path) v.kind) :
    IsGroupKey (readTime now) contentAndTarget EntryRow.origin (identity (gitClass path))
      (Running (gitClass path) rows) (identityOfVersion (gitClass path) v)
      (versionKey (gitClass path) now v) :=
  isGroupKey_versionKey (grouped_fromEntries path rows)
    ((mem_versions_iff space path rows now hruns).mp hv) hruns

theorem mem_attestors_iff (hv : v ∈ (fromEntries space path rows now).versions)
    (hruns : Runs (gitClass path) v.kind) (origin : String) :
    origin ∈ v.attestors ↔
      ∃ row ∈ rows, identity (gitClass path) row = identityOfVersion (gitClass path) v ∧
        row.origin = origin := by
  rw [(grouped_fromEntries path rows).attestors v
    ((mem_versions_iff space path rows now hruns).mp hv)]
  simp [Asserting, and_assoc]

/-- The version that ranks first has the greatest key of those in the running. -/
theorem rankedFirst_spec (h : (fromEntries space path rows now).rankedFirst = some v) :
    (v ∈ (fromEntries space path rows now).versions ∧
        Runs (gitClass path) v.kind) ∧
      ∀ w ∈ (fromEntries space path rows now).versions,
        Runs (gitClass path) w.kind →
          versionKey (gitClass path) now w ≤ versionKey (gitClass path) now v := by
  have hsorted := sortBy_pairwise (versionKey (gitClass path) now)
    (retainVersions (gitClass path) (groupEntries (gitClass path) (sortBy EntryRow.origin rows)))
  have hspec := getLast?_filter_spec hsorted h
  simp only [decide_eq_true_eq] at hspec
  exact hspec

theorem rankedFirst_isSome (hrow : row ∈ Running (gitClass path) rows) :
    ∃ v, (fromEntries space path rows now).rankedFirst = some v := by
  obtain ⟨v, hv, hruns, -⟩ := exists_version space path rows now hrow
  exact exists_getLast?_filter hv (decide_eq_true hruns)

theorem mem_running_iff (row : EntryRow) :
    row ∈ ((fromEntries space path rows now).entries.filter fun entry =>
        deletionIsAnUpdate (fromEntries space path rows now).git || entry.kind != .tombstone) ↔
      row ∈ Running (gitClass path) rows := by
  simp [fromEntries, mem_sortBy, Running, Runs]

/-- The selected entry has the greatest key of those in the running. -/
theorem select_newest_spec {entry : EntryRow}
    (h : (fromEntries space path rows now).select .newest now = .selected entry) :
    entry ∈ Running (gitClass path) rows ∧
      ∀ row ∈ Running (gitClass path) rows,
        entryKey (gitClass path) now row ≤ entryKey (gitClass path) now entry := by
  simp only [VersionSet.select, VersionSet.selectNewest] at h
  split at h
  · next found hfound =>
    obtain ⟨hmem, hmax⟩ := maxBy_spec _ hfound
    obtain rfl : found = entry := by simpa using h
    refine ⟨(mem_running_iff space path rows now found).mp hmem, fun row hrow => ?_⟩
    exact hmax row ((mem_running_iff space path rows now row).mpr hrow)
  · cases h

theorem exists_select_newest (hrow : row ∈ Running (gitClass path) rows) :
    ∃ entry, (fromEntries space path rows now).select .newest now = .selected entry := by
  have hmem := (mem_running_iff space path rows now row).mpr hrow
  simp only [VersionSet.select, VersionSet.selectNewest]
  split
  · next found hfound => exact ⟨found, rfl⟩
  · next hnone =>
    rw [(maxBy_eq_none_iff _).mp hnone] at hmem
    simp at hmem

end Sets

/-- A path is in the tree when the version that ranks first is live. -/
theorem exists_iff_rankedFirst (set : VersionSet) :
    set.exists? = true ↔ ∃ v, set.rankedFirst = some v ∧ v.kind ≠ .tombstone := by
  unfold VersionSet.exists? VersionSet.rankedFirst
  split
  · next hcompete =>
    have hall : (set.versions.filter fun v => Runs set.git v.kind) = set.versions :=
      filter_eq_self.mpr fun v _ => decide_eq_true (.inl hcompete)
    rw [hall]
    cases set.versions.getLast? with
    | none => simp
    | some v => simp [Version.isTombstone]
  · next hcompete =>
    have hruns : ∀ v : Version, Runs set.git v.kind ↔ v.kind ≠ .tombstone :=
      fun v => ⟨fun h => h.resolve_left hcompete, .inr⟩
    rw [any_eq_true]
    constructor
    · rintro ⟨v, hv, hlive⟩
      have hlive : v.kind ≠ .tombstone := by simpa [Version.isTombstone] using hlive
      obtain ⟨w, hw⟩ := exists_getLast?_filter (p := fun v => Runs set.git v.kind) hv
        (decide_eq_true ((hruns v).mpr hlive))
      have hrun := (mem_filter.mp (mem_of_getLast? hw)).2
      exact ⟨w, hw, (hruns w).mp (of_decide_eq_true hrun)⟩
    · rintro ⟨v, hv, hlive⟩
      have hmem := mem_filter.mp (mem_of_getLast? hv)
      exact ⟨v, hmem.1, by simpa [Version.isTombstone] using hlive⟩

/-! ## Coherence -/

/-- The rows in any other order give the same versions, divergence and selections. -/
def OrderBlind (space path : String) (rows : List EntryRow) (now : Int) : Prop :=
  ∀ other : List EntryRow, other.Perm rows →
    let set := fromEntries space path rows now
    let set' := fromEntries space path other now
    set'.versions = set.versions ∧ set'.isDivergent = set.isDivergent ∧
      ∀ policy, set'.select policy now = set.select policy now

/-- The path exists exactly when `newest` selects a live entry, and the entry it
selects is attested by the version that ranks first. -/
structure Coherent (set : VersionSet) (now : Int) : Prop where
  exists_iff : set.exists? = true ↔
    ∃ entry, set.select .newest now = .selected entry ∧ entry.kind ≠ .tombstone
  attested : ∀ entry, set.select .newest now = .selected entry →
    ∃ v, set.rankedFirst = some v ∧ entry.origin ∈ v.attestors

/-- No origin has two rows that differ. -/
def OneVoice (rows : List EntryRow) : Prop :=
  ∀ a ∈ rows, ∀ b ∈ rows, a.origin = b.origin → a = b

/-- No row of the running that ties with the greatest one in time, content and target
is of a version with an attestor above every attestor of the greatest one's version. -/
def Settled (rows : List EntryRow) (now : Int) : Prop :=
  ∀ e ∈ Running git rows,
    (∀ f ∈ Running git rows, entryKey git now f ≤ entryKey git now e) →
      NamesSettled (readTime now) contentAndTarget EntryRow.origin (identity git)
        (Running git rows) e

section Order

variable {space path : String} {rows : List EntryRow} {now : Int}

theorem fromEntries_eq_of_perm {other : List EntryRow} (hvoice : OneVoice rows)
    (hperm : other.Perm rows) :
    fromEntries space path other now = fromEntries space path rows now := by
  have hsort := sortBy_eq_of_perm EntryRow.origin hperm.symm hvoice
  simp only [fromEntries, hsort]

/-- Pinned to an origin, a set answers with the first of its rows. -/
theorem select_origin_head (row : EntryRow) (rest : List EntryRow) :
    (fromEntries space path (row :: rest) now).select (.origin row.origin) now = .selected row := by
  have hfind := find?_sortBy EntryRow.origin row.origin (row :: rest)
  rw [find?_cons_of_pos (by simp)] at hfind
  simp only [VersionSet.select, fromEntries]
  rw [hfind]

theorem oneVoice_of_orderBlind (hblind : OrderBlind space path rows now) : OneVoice rows := by
  intro a ha b hb horigin
  have has := perm_cons_erase ha
  have hbs := perm_cons_erase hb
  have hselect : Selection.selected a = .selected b := by
    calc
      Selection.selected a
          = (fromEntries space path (a :: rows.erase a) now).select
              (.origin a.origin) now := (select_origin_head a _).symm
      _ = (fromEntries space path rows now).select (.origin a.origin) now :=
          (hblind _ has.symm).2.2 _
      _ = (fromEntries space path (b :: rows.erase b) now).select (.origin a.origin) now :=
          ((hblind _ hbs.symm).2.2 _).symm
      _ = .selected b := by rw [horigin, select_origin_head b _]
  simpa using hselect

/-- Two versions of one key are one version: their greatest attestor has one row. -/
theorem identity_eq_of_key_eq (hvoice : OneVoice rows) {v w : Version}
    (hv : v ∈ (fromEntries space path rows now).versions)
    (hw : w ∈ (fromEntries space path rows now).versions)
    (hv_runs : Runs (gitClass path) v.kind) (hw_runs : Runs (gitClass path) w.kind)
    (hkey : versionKey (gitClass path) now v = versionKey (gitClass path) now w) :
    identityOfVersion (gitClass path) v = identityOfVersion (gitClass path) w := by
  obtain ⟨⟨r, ⟨hr, hir⟩, hrname⟩, -⟩ :=
    (isGroupKey_of_mem_versions space path rows now hv hv_runs).greatest_name
  obtain ⟨⟨s, ⟨hs, his⟩, hsname⟩, -⟩ :=
    (isGroupKey_of_mem_versions space path rows now hw hw_runs).greatest_name
  have horigin : r.origin = s.origin := by
    rw [hrname, hsname, hkey]
  rw [← hir, ← his, hvoice r hr.1 s hs.1 horigin]

/-- With the names settled, the version that ranks first is the selected entry's. -/
theorem rankedFirst_identity (hvoice : OneVoice rows) (hsettled : Settled (gitClass path) rows now)
    {entry : EntryRow} (hselect : (fromEntries space path rows now).select .newest now =
      .selected entry) {v : Version}
    (hfirst : (fromEntries space path rows now).rankedFirst = some v) :
    identityOfVersion (gitClass path) v = identity (gitClass path) entry := by
  obtain ⟨hentry, hmax⟩ := select_newest_spec space path rows now hselect
  obtain ⟨⟨hv, hv_runs⟩, hgreatest⟩ := rankedFirst_spec space path rows now hfirst
  obtain ⟨w, hw, hw_runs, hi⟩ := exists_version space path rows now hentry
  have hw_key := isGroupKey_of_mem_versions space path rows now hw hw_runs
  have hle := groupKey_le_of_namesSettled hentry hmax (hi ▸ hw_key)
    (hsettled entry hentry hmax)
    (isGroupKey_of_mem_versions space path rows now hv hv_runs)
  rw [← hi]
  exact identity_eq_of_key_eq hvoice hv hw hv_runs hw_runs
    (le_antisymm hle (hgreatest w hw hw_runs))

theorem coherent_of_settled (hvoice : OneVoice rows) (hsettled : Settled (gitClass path) rows now) :
    Coherent (fromEntries space path rows now) now := by
  have hkind : ∀ {entry v},
      (fromEntries space path rows now).select .newest now = .selected entry →
      (fromEntries space path rows now).rankedFirst = some v → v.kind = entry.kind := by
    intro entry v hselect hfirst
    simpa using congrArg Prod.fst (rankedFirst_identity hvoice hsettled hselect hfirst)
  refine ⟨?_, ?_⟩
  · rw [exists_iff_rankedFirst]
    constructor
    · rintro ⟨v, hfirst, hlive⟩
      obtain ⟨⟨hv, hruns⟩, -⟩ := rankedFirst_spec space path rows now hfirst
      obtain ⟨row, ⟨hrow, -⟩, -⟩ :=
        (isGroupKey_of_mem_versions space path rows now hv hruns).greatest_time.1
      obtain ⟨entry, hselect⟩ := exists_select_newest space path rows now hrow
      exact ⟨entry, hselect, hkind hselect hfirst ▸ hlive⟩
    · rintro ⟨entry, hselect, hlive⟩
      have hentry := (select_newest_spec space path rows now hselect).1
      obtain ⟨v, hfirst⟩ := rankedFirst_isSome space path rows now hentry
      exact ⟨v, hfirst, hkind hselect hfirst ▸ hlive⟩
  · intro entry hselect
    have hentry := (select_newest_spec space path rows now hselect).1
    obtain ⟨v, hfirst⟩ := rankedFirst_isSome space path rows now hentry
    obtain ⟨⟨hv, hruns⟩, -⟩ := rankedFirst_spec space path rows now hfirst
    have hi := rankedFirst_identity hvoice hsettled hselect hfirst
    exact ⟨v, hfirst, (mem_attestors_iff space path rows now hv hruns _).mpr
      ⟨entry, hentry.1, hi.symm, rfl⟩⟩

theorem settled_of_coherent (hvoice : OneVoice rows)
    (hcoherent : Coherent (fromEntries space path rows now) now) :
    Settled (gitClass path) rows now := by
  intro e he hmax
  obtain ⟨entry, hselect⟩ := exists_select_newest space path rows now he
  obtain ⟨hentry, hgreatest⟩ := select_newest_spec space path rows now hselect
  -- The greatest key has one row, so `e` is the selected one.
  have hkey := le_antisymm (hgreatest e he) (hmax entry hentry)
  have horigin : e.origin = entry.origin := congrArg (fun k => (ofLex (ofLex k).2).2) hkey
  obtain rfl := hvoice e he.1 entry hentry.1 horigin
  obtain ⟨v, hfirst, hattests⟩ := hcoherent.attested e hselect
  obtain ⟨⟨hv, hruns⟩, hrank⟩ := rankedFirst_spec space path rows now hfirst
  obtain ⟨row, hrow, hi, hrow_origin⟩ :=
    (mem_attestors_iff space path rows now hv hruns _).mp hattests
  obtain rfl := hvoice row hrow e he.1 hrow_origin
  have hv_key := isGroupKey_of_mem_versions space path rows now hv hruns
  rw [← hi] at hv_key
  apply namesSettled_of_groupKey_le he hmax hv_key
  intro f hf
  obtain ⟨w, hw, hw_runs, hw_id⟩ := exists_version space path rows now hf
  have hw_key := isGroupKey_of_mem_versions space path rows now hw hw_runs
  exact ⟨_, hw_id ▸ hw_key, hrank w hw hw_runs⟩

end Order

/-- A version set is order-blind and coherent exactly when no origin has two rows
that differ and the rows tied with the greatest one are settled. -/
theorem coherent_iff_settled
    (space path : String) (rows : List EntryRow) (now : Int) :
    OrderBlind space path rows now ∧
        Coherent (fromEntries space path rows now) now ↔
      OneVoice rows ∧ Settled (gitClass path) rows now := by
  constructor
  · rintro ⟨hblind, hcoherent⟩
    have hvoice := oneVoice_of_orderBlind hblind
    exact ⟨hvoice, settled_of_coherent hvoice hcoherent⟩
  · rintro ⟨hvoice, hsettled⟩
    refine ⟨fun other hperm => ?_, coherent_of_settled hvoice hsettled⟩
    rw [fromEntries_eq_of_perm hvoice hperm]
    exact ⟨rfl, rfl, fun _ => rfl⟩

/-- A row of the branch that the next theorem is about. -/
def exampleRow (origin : String) (kind : EntryKind) (mtimeNs : Int) : EntryRow where
  origin := origin
  space := "code"
  path := "app/.git/refs/heads/main"
  kind := kind
  size := 0
  mtimeNs := mtimeNs
  unixMode := none
  content := none
  seq := 1
  prev := none
  symlinkTarget := none

/-- Two deletions of a branch and a live entry that ties with the later of them.  The
older deletion has the greatest name, so the path is gone while `newest` selects the
live entry, which the version that ranks first does not attest. -/
theorem older_deletion_hides_selected_entry :
    let rows := [exampleRow "a" .tombstone 10, exampleRow "b" .dir 10, exampleRow "c" .tombstone 5]
    let set := fromEntries "code" "app/.git/refs/heads/main" rows 20
    OneVoice rows ∧ set.exists? = false ∧
      set.select .newest 20 = .selected (exampleRow "b" .dir 10) ∧
        set.rankedFirst.map Version.attestors = some ["a", "c"] := by
  refine ⟨?_, ?_⟩
  · unfold OneVoice
    decide +kernel
  · decide +kernel

end Synch.Tree
