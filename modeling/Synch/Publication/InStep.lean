import Synch.Publication.Holds

/-!
# Entries, advertisements and holds in step

One publication takes a database whose live files are held and advertised to
another such database.  The loop's invariant carries the holds, releasing the
holds of the touched spaces keeps those an entry names, and the advertisements
are derived from the view of the proposed tree.
-/

namespace Synch.Publication

open List Synch.Records Synch.Support

variable {services : Services}

/-- The view shows the tree, and every live file is held by its source and
advertised with its size. -/
structure Db.InStep (services : Services) (db : Db) : Prop where
  shows : (Db.entriesView services).Shows db.entries (db.trie[·]?)
  decodes : AllDecode services db.trie
  held : ∀ {space path entry}, Names services db.trie space path entry →
    entry.kind.hasContent = true → ∃ content, entry.content = some content ∧
      Held db space content entry.size ∧ Advertised services db.trie content entry.size

variable {space path : String} {db : Db} {entry : FileEntry}

theorem sourceHolder_injective {space' : String} (h : sourceHolder space = sourceHolder space') :
    space = space' := by
  have hlist := congrArg String.toList h
  rw [sourceHolder, sourceHolder, String.toList_append, String.toList_append] at hlist
  exact String.toList_injective (append_cancel_left hlist)

/-- Releasing the holds of several spaces looks at the same entries each time. -/
theorem foldl_reconcileSourceHolds (spaces : List String) (db : Db) :
    spaces.foldl Db.reconcileSourceHolds db =
      { db with
        pins := db.pins.filter fun pin => spaces.all fun space =>
          pin.holder ≠ sourceHolder space ∨ db.namesContent space pin.root } := by
  induction spaces generalizing db with
  | nil => simp
  | cons space spaces ih =>
    rw [foldl_cons, ih, Db.reconcileSourceHolds]
    simp only [filter_filter, all_cons]
    congr 1
    apply filter_congr
    intro pin _
    rw [Bool.and_comm]
    rfl

theorem Held.reconcile {root : Hash} {size : UInt64} (h : Held db space root size)
    (hnames : db.namesContent space root = true) (spaces : List String) :
    Held (spaces.foldl Db.reconcileSourceHolds db) space root size := by
  rw [foldl_reconcileSourceHolds]
  refine ⟨h.source, h.durable, mem_filter.mpr ⟨h.pinned, ?_⟩⟩
  rw [all_eq_true]
  intro other _
  by_cases hsame : space = other
  · subst hsame
    simp [hnames]
  · have hholder : sourceHolder space ≠ sourceHolder other := fun h =>
      hsame (sourceHolder_injective h)
    simp [hholder]

theorem namesContent_of_mem {content : Hash} (hmem : ⟨space, path, entry.columns⟩ ∈ db.entries)
    (hcontent : entry.content = some content) : db.namesContent space content = true := by
  refine any_eq_true.mpr ⟨_, hmem, ?_⟩
  rw [Bool.and_eq_true]
  exact ⟨beq_self_eq_true space, (has_content_iff rfl).mpr hcontent⟩

/-- The final view knows the size of a held file's content. -/
theorem Held.liveSourceBlobSize {content : Hash} (h : Held db space content entry.size)
    (hmem : ⟨space, path, entry.columns⟩ ∈ db.entries) (hcontent : entry.content = some content) :
    db.liveSourceBlobSize content = some entry.size := by
  obtain ⟨row, hrow, hdurable, hsize⟩ := h.durable
  have hany : db.entries.any (fun found =>
      found.has "content" (rootCell content) && db.sources.contains found.space &&
        found.has "size" (.integer row.size.toInt64)) = true := by
    refine any_eq_true.mpr ⟨_, hmem, ?_⟩
    rw [Bool.and_eq_true, Bool.and_eq_true, hsize]
    exact ⟨⟨(has_content_iff rfl).mpr hcontent, h.source⟩, has_size rfl⟩
  rw [Db.liveSourceBlobSize, hrow]
  dsimp only
  rw [if_pos (by rw [hdurable, hany]; rfl), hsize]

section Advertise

variable {db : Db} {content : Hash} {size : UInt64}

theorem Advertised.advertiseSource {trie : Trie} (hsize : db.liveSourceBlobSize content = some size)
    (other : Hash) (h : Advertised services trie content size ∨ other = content) :
    Advertised services (advertiseSource services db trie other) content size := by
  rw [Advertised, Publication.advertiseSource]
  by_cases hother : other = content
  · subst hother
    rw [hsize]
    rw [getElem?_insert, if_pos rfl]
  · have hkey : blobKey other ≠ blobKey content := fun heq => hother (blobKey_injective heq)
    have hadvertised := h.resolve_right hother
    split
    · exact hadvertised
    · rw [getElem?_insert, if_neg hkey]
      exact hadvertised

/-- After the loop over the source roots the content is advertised. -/
theorem advertised_foldl_advertiseSource {roots : List Hash} {trie : Trie}
    (hsize : db.liveSourceBlobSize content = some size)
    (h : Advertised services trie content size ∨ content ∈ roots) :
    Advertised services (roots.foldl (advertiseSource services db) trie) content size := by
  induction roots generalizing trie with
  | nil => exact h.resolve_right (by simp)
  | cons other roots ih =>
    rw [foldl_cons]
    apply ih
    by_cases hother : other = content
    · exact .inl (Advertised.advertiseSource hsize other (.inr hother))
    · refine h.imp (fun h => Advertised.advertiseSource hsize other (.inl h)) fun hmem => ?_
      exact (mem_cons.mp hmem).resolve_left fun h => hother h.symm

/-- No blob intent takes the advertisement away. -/
theorem Advertised.foldl_advertiseBlob {changes : List (Hash × BlobIntent)} {trie : Trie}
    (hsize : db.liveSourceBlobSize content = some size)
    (h : Advertised services trie content size) :
    Advertised services (changes.foldl (advertiseBlob services db) trie) content size := by
  refine foldl_invariant (fun trie => Advertised services trie content size) ?_ h
  rintro trie ⟨other, intent⟩ - hadvertised
  rw [Advertised, advertiseBlob]
  by_cases hother : other = content
  · subst hother
    rw [intendedAd, hsize]
    rw [getElem?_insert, if_pos rfl]
  · have hkey : blobKey other ≠ blobKey content := fun heq => hother (blobKey_injective heq)
    split
    · rw [getElem?_insert, if_neg hkey]
      exact hadvertised
    · rw [getElem?_erase, if_neg hkey]
      exact hadvertised

end Advertise

/-- Deriving advertisements touches the keys of objects only. -/
theorem getElem?_advertise {roots : List Hash} {changes : List (Hash × BlobIntent)} {trie : Trie}
    {key : List UInt8} (hkey : ∀ root, key ≠ blobKey root) :
    (changes.foldl (advertiseBlob services db)
      (roots.foldl (advertiseSource services db) trie))[key]? = trie[key]? := by
  have hsources : (roots.foldl (advertiseSource services db) trie)[key]? = trie[key]? := by
    refine foldl_invariant (fun root => root[key]? = trie[key]?) ?_ rfl
    intro root content _ h
    rw [advertiseSource]
    split
    · exact h
    · rw [getElem?_insert, if_neg (hkey content).symm]
      exact h
  refine foldl_invariant (fun root => root[key]? = trie[key]?) ?_ hsources
  rintro root ⟨content, intent⟩ _ h
  rw [advertiseBlob]
  split
  · rw [getElem?_insert, if_neg (hkey content).symm]
    exact h
  · rw [getElem?_erase, if_neg (hkey content).symm]
    exact h

/-! ## The transaction -/

/-- The database after the holds of the touched spaces are released. -/
def settledDb (batch : Batch) (viewed : Db) : Db :=
  batch.changedSpaces.foldl Db.reconcileSourceHolds viewed

def finalRoot (services : Services) (batch : Batch) (viewed : Db) : Trie :=
  batch.blobChanges.foldl (advertiseBlob services (settledDb batch viewed))
    (batch.sourceRoots.foldl (advertiseSource services (settledDb batch viewed)) batch.root)

theorem materializeDiff_of_isEmpty {old new : Trie} (h : (differences old new).isEmpty = true) :
    db.materializeDiff services old new = .ok db := by
  rw [Db.materializeDiff, isEmpty_iff.mp h]
  rfl

theorem publishChanges_eq_ok {db' : Db} {staged : List StagedChange} {changed : Bool}
    (h : publishChanges services db staged = .ok (db', changed)) :
    ∃ batch viewed final,
      staged.foldlM (Batch.applyChange services) ⟨db, db.trie, [], [], []⟩ = .ok batch ∧
      batch.db.materializeDiff services db.trie batch.root = .ok viewed ∧
      (settledDb batch viewed).materializeDiff services batch.root
        (finalRoot services batch viewed) = .ok final ∧
      db' = { final with trie := finalRoot services batch viewed } ∧
      changed = !(differences db.trie (finalRoot services batch viewed)).isEmpty := by
  obtain ⟨batch, hbatch, h⟩ := bind_eq_ok h
  obtain ⟨viewed, hviewed, h⟩ := bind_eq_ok h
  refine ⟨batch, viewed, ?_⟩
  by_cases hsame : (differences batch.root (finalRoot services batch viewed)).isEmpty = true
  · have hsame' := hsame
    rw [finalRoot, settledDb] at hsame'
    rw [if_pos hsame'] at h
    cases h
    exact ⟨settledDb batch viewed, hbatch, hviewed, materializeDiff_of_isEmpty hsame, rfl, rfl⟩
  · have hsame' := hsame
    rw [finalRoot, settledDb] at hsame'
    rw [if_neg hsame'] at h
    obtain ⟨final, hfinal, h⟩ := bind_eq_ok h
    cases h
    exact ⟨final, hbatch, hviewed, hfinal, rfl, rfl⟩

/-- What holds of the batch after the loop over the staged changes. -/
theorem Db.InStep.batch {db : Db} {staged : List StagedChange} {batch : Batch}
    (h : db.InStep services)
    (hbatch : staged.foldlM (Batch.applyChange services) ⟨db, db.trie, [], [], []⟩ =
      .ok batch) : batch.Inv services ∧ db.Grows batch.db := by
  refine foldlM_invariant (fun batch : Batch => batch.Inv services ∧ db.Grows batch.db) ?_ ?_ hbatch
  · rintro current change next - ⟨hinv, hgrows⟩ happly
    exact ⟨hinv.applyChange happly, hgrows.trans (grows_of_applyChange happly)⟩
  · refine ⟨⟨h.decodes, ?_⟩, .refl db⟩
    intro space path entry hnames hlive
    obtain ⟨content, hcontent, hheld, hadvertised⟩ := h.held hnames hlive
    exact ⟨content, hcontent, hheld, .inl hadvertised⟩

/-- The view after the first materialization shows the proposed tree. -/
theorem Db.InStep.viewed (hservices : services.Documented)
    {db viewed : Db} {batch : Batch} (h : db.InStep services) (hgrows : db.Grows batch.db)
    (hviewed : batch.db.materializeDiff services db.trie batch.root = .ok viewed) :
    (Db.entriesView services).Shows viewed.entries (batch.root[·]?) ∧
      viewed = { batch.db with entries := viewed.entries } := by
  obtain ⟨rows, hrows, rfl⟩ := map_eq_ok hviewed
  have hshows := h.shows
  rw [← hgrows.entries] at hshows
  exact ⟨hshows.refresh_differences (entriesView_lawful hservices) hrows, rfl⟩

theorem names_finalRoot_iff (hservices : services.Documented) {batch : Batch} {viewed : Db} :
    Names services (finalRoot services batch viewed) space path entry ↔
      Names services batch.root space path entry := by
  have hsame : ∀ {key}, parseFileKey services.unicode key = .ok (space, path) →
      (finalRoot services batch viewed)[key]? = batch.root[key]? := fun hparse =>
    getElem?_advertise (ne_blobKey_of_parse hservices hparse)
  constructor
  · rintro ⟨key, bytes, hparse, hvalue, hdecode⟩
    rw [hsame hparse] at hvalue
    exact ⟨key, bytes, hparse, hvalue, hdecode⟩
  · rintro ⟨key, bytes, hparse, hvalue, hdecode⟩
    rw [← hsame hparse] at hvalue
    exact ⟨key, bytes, hparse, hvalue, hdecode⟩

theorem AllDecode.finalRoot (hservices : services.Documented) {batch : Batch} {viewed : Db}
    (h : AllDecode services batch.root) : AllDecode services (finalRoot services batch viewed) := by
  intro key space path bytes hparse hvalue
  rw [Publication.finalRoot, getElem?_advertise (ne_blobKey_of_parse hservices hparse)] at hvalue
  obtain ⟨entry, hnames, hdecode⟩ := h hparse hvalue
  exact ⟨entry, (names_finalRoot_iff hservices).mpr hnames, hdecode⟩

theorem settledDb_entries (batch : Batch) (viewed : Db) :
    (settledDb batch viewed).entries = viewed.entries := by
  rw [settledDb, foldl_reconcileSourceHolds]

/-- A publication keeps entries, advertisements and holds in step. -/
theorem Db.InStep.publishChanges (hservices : services.Documented) {db' : Db}
    {staged : List StagedChange} {changed : Bool} (h : db.InStep services)
    (hpublish : publishChanges services db staged = .ok (db', changed)) : db'.InStep services := by
  obtain ⟨batch, viewed, final, hbatch, hviewed, hfinal, rfl, -⟩ :=
    publishChanges_eq_ok hpublish
  obtain ⟨hinv, hgrows⟩ := h.batch hbatch
  obtain ⟨hshows, hviewedEq⟩ := h.viewed hservices hgrows hviewed
  obtain ⟨rows, hrows, rfl⟩ := map_eq_ok hfinal
  have hsettled : (Db.entriesView services).Shows (settledDb batch viewed).entries
      (batch.root[·]?) := by
    rw [settledDb_entries]
    exact hshows
  refine ⟨hsettled.refresh_differences (entriesView_lawful hservices) hrows,
    hinv.decodes.finalRoot hservices, ?_⟩
  intro space path entry hnames hlive
  have hproposed := (names_finalRoot_iff hservices).mp hnames
  have hmem := hproposed.mem_entries hservices hshows
  obtain ⟨content, hcontent, hheld, hshown⟩ := hinv.held hproposed hlive
  have hheldViewed : Held viewed space content entry.size := by
    rw [hviewedEq]
    exact hheld.withEntries viewed.entries batch.db.trie
  have hheldSettled : Held (settledDb batch viewed) space content entry.size :=
    hheldViewed.reconcile (namesContent_of_mem hmem hcontent) batch.changedSpaces
  have hsize : (settledDb batch viewed).liveSourceBlobSize content = some entry.size := by
    apply hheldSettled.liveSourceBlobSize _ hcontent
    · exact path
    · rw [settledDb_entries]
      exact hmem
  refine ⟨content, hcontent, hheldSettled.withEntries rows _, ?_⟩
  exact (advertised_foldl_advertiseSource hsize hshown).foldl_advertiseBlob hsize

end Synch.Publication
