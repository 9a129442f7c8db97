import Synch.Support.Run
import Synch.Publication.InStep

/-!
# Runs of publications

Successful publications in any order, with the content store and the configured
sources changing in between.  Live files stay held and advertised.  A hold of a
touched space that remains is named by an entry of the space; that entry is live
unless a tombstone was published that names content.
-/

namespace Synch.Publication

open List Synch.Records Synch.Support

variable {services : Services}

/-! ## Holds that remain -/

/-- The batch writes or removes a record of the space. -/
def Touches (services : Services) (staged : List StagedChange) (space : String) : Prop :=
  ∃ key value ordinary path, StagedChange.record key value ordinary ∈ staged ∧
    parseFileKey services.unicode key = .ok (space, path)

/-- The change stages a tombstone that names content. -/
def carriesDead (services : Services) : StagedChange → Bool
  | .record key (some bytes) _ =>
    match parseFileKey services.unicode key, FileEntry.decodeEntry services.postcard bytes with
    | .ok _, some entry => entry.isTombstone && entry.content.isSome
    | _, _ => false
  | _ => false

/-- No tombstone of the tree names content. -/
def Plain (services : Services) (trie : Trie) : Prop :=
  ∀ ⦃space path entry⦄, Names services trie space path entry →
    entry.isTombstone = true → entry.content = none

variable {entry : FileEntry} {batch batch' : Batch} {staged : List StagedChange} {db db' : Db}
    {space : String}

theorem content_eq_none_of_carriesDead {key bytes : List UInt8}
    {ordinary : [98, 58].isPrefixOf key = false} {name : String × String}
    (h : carriesDead services (.record key (some bytes) ordinary) = false)
    (hparse : parseFileKey services.unicode key = .ok name)
    (hdecode : FileEntry.decodeEntry services.postcard bytes = some entry)
    (htombstone : entry.isTombstone = true) : entry.content = none := by
  rw [carriesDead, hparse, hdecode] at h
  simpa [htombstone] using h

theorem Plain.applyChange {change : StagedChange} (h : Plain services batch.root)
    (hchange : carriesDead services change = false)
    (happly : batch.applyChange services change = .ok batch') : Plain services batch'.root := by
  cases change with
  | blob root intent =>
    cases happly
    exact h
  | record key value ordinary =>
    obtain ⟨noted, hnote, rfl⟩ := map_eq_ok happly
    intro space path entry hnames htombstone
    obtain ⟨hparse, bytes, rfl, hdecode⟩ | hnames := names_of_writeTrie hnames
    · exact content_eq_none_of_carriesDead hchange hparse hdecode htombstone
    · rw [(noteRecord_eq_ok hnote).root] at hnames
      exact h hnames htombstone

theorem changedSpaces_of_applyChange {change : StagedChange}
    (h : batch.applyChange services change = .ok batch') :
    batch.changedSpaces ⊆ batch'.changedSpaces ∧
      ∀ {space}, Touches services [change] space → space ∈ batch'.changedSpaces := by
  cases change with
  | blob root intent =>
    cases h
    refine ⟨List.Subset.refl _, ?_⟩
    rintro space ⟨key, value, ordinary, path, hmem, -⟩
    simp at hmem
  | record key value ordinary =>
    obtain ⟨noted, hnote, rfl⟩ := map_eq_ok h
    have hnoted := noteRecord_eq_ok hnote
    refine ⟨hnoted.changedSpaces, ?_⟩
    rintro space ⟨key', value', ordinary', path, hmem, hparse⟩
    rw [mem_singleton] at hmem
    cases hmem
    exact hnoted.touched hparse

theorem changedSpaces_of_touches
    (h : staged.foldlM (Batch.applyChange services) batch = .ok batch') :
    batch.changedSpaces ⊆ batch'.changedSpaces ∧
      ∀ {space}, Touches services staged space → space ∈ batch'.changedSpaces := by
  induction staged generalizing batch with
  | nil =>
    cases h
    refine ⟨List.Subset.refl _, ?_⟩
    rintro space ⟨key, value, ordinary, path, hmem, -⟩
    simp at hmem
  | cons change staged ih =>
    rw [foldlM_cons] at h
    obtain ⟨next, hnext, hrest⟩ := bind_eq_ok h
    obtain ⟨hsubset, hfirst⟩ := changedSpaces_of_applyChange hnext
    obtain ⟨hsubset', hothers⟩ := ih hrest
    refine ⟨List.Subset.trans hsubset hsubset', ?_⟩
    rintro space ⟨key, value, ordinary, path, hmem, hparse⟩
    obtain rfl | hmem := mem_cons.mp hmem
    · exact hsubset' (hfirst ⟨key, value, ordinary, path, mem_cons_self, hparse⟩)
    · exact hothers ⟨key, value, ordinary, path, hmem, hparse⟩

theorem Plain.publishChanges (hservices : services.Documented) {changed : Bool}
    (h : Plain services db.trie) (hstaged : ∀ c ∈ staged, carriesDead services c = false)
    (hpublish : publishChanges services db staged = .ok (db', changed)) :
    Plain services db'.trie := by
  obtain ⟨batch, viewed, final, hbatch, -, -, rfl, -⟩ := publishChanges_eq_ok hpublish
  have hroot : Plain services batch.root :=
    foldlM_invariant (fun batch : Batch => Plain services batch.root)
      (fun current change next hmem hplain happly =>
        hplain.applyChange (hstaged change hmem) happly) h hbatch
  intro space path entry hnames
  exact hroot ((names_finalRoot_iff hservices).mp hnames)

/-- A hold of a touched space that remains is named by an entry of the space. -/
theorem named_of_remaining_pin (hservices : services.Documented) {changed : Bool}
    (h : db.InStep services) (hpublish : publishChanges services db staged = .ok (db', changed))
    (htouches : Touches services staged space) {pin : Pin} (hpin : pin ∈ db'.pins)
    (hholder : pin.holder = sourceHolder space) :
    ∃ path entry, Names services db'.trie space path entry ∧ entry.content = some pin.root := by
  obtain ⟨batch, viewed, final, hbatch, hviewed, hfinal, rfl, -⟩ :=
    publishChanges_eq_ok hpublish
  obtain ⟨hinv, hgrows⟩ := h.batch hbatch
  obtain ⟨hshows, -⟩ := h.viewed hservices hgrows hviewed
  obtain ⟨rows, -, rfl⟩ := map_eq_ok hfinal
  have hspace := (changedSpaces_of_touches hbatch).2 htouches
  have hpin : pin ∈ (settledDb batch viewed).pins := hpin
  rw [settledDb, foldl_reconcileSourceHolds] at hpin
  have hkept := all_eq_true.mp (mem_filter.mp hpin).2 space hspace
  have hnamed : viewed.namesContent space pin.root = true := by
    simpa [hholder] using hkept
  obtain ⟨row, hrow, hmatch⟩ := any_eq_true.mp hnamed
  rw [Bool.and_eq_true, beq_iff_eq] at hmatch
  obtain ⟨entry, hnames, hcolumns⟩ :=
    names_of_mem_entries hservices hshows hinv.decodes hrow
  rw [hmatch.1] at hnames
  exact ⟨row.path, entry, (names_finalRoot_iff hservices).mpr hnames,
    (has_content_iff hcolumns).mp hmatch.2⟩

/-! ## Steps -/

/-- A publication, or a change of what it reads between two of them. -/
inductive Action where
  | publish (staged : List StagedChange)
  | store (blobs : List BlobRow)
  | putSource (space : String)
  | removeSource (space : String) (others : List EntryRow)

/-- No durable row was lost or resized. -/
def durableKept (old new : List BlobRow) : Bool :=
  old.all fun row =>
    !row.durable || (new.find? fun kept => kept.root = row.root).any fun kept =>
        kept.durable && kept.size == row.size

/-- Removing a source drops the holds that no entry of the space names, those of
other origins included.  The node publishes the removal of its own entries
first. -/
def Db.removeSource (db : Db) (space : String) (others : List EntryRow) : Db :=
  { db with
    sources := db.sources.filter fun other => other ≠ space
    pins := db.pins.filter fun pin =>
      pin.holder ≠ sourceHolder space ∨
        others.any fun row => row.space == space && row.has "content" (rootCell pin.root) }

def step (services : Services) (db : Db) : Action → Option Db
  | .publish staged => (publish services db staged).toOption.map Prod.fst
  | .store blobs => if durableKept db.blobs blobs then some { db with blobs := blobs } else none
  | .putSource space =>
    some { db with
      sources := if db.sources.contains space then db.sources else db.sources ++ [space] }
  | .removeSource space others =>
    if db.entries.any fun row => row.space == space then none
    else some (db.removeSource space others)

/-- The action stages no tombstone that names content. -/
def Sound (services : Services) (_ : Db) : Action → Prop
  | .publish staged => ∀ change ∈ staged, carriesDead services change = false
  | _ => True

theorem step_publish_eq_some (h : step services db (.publish staged) = some db') :
    (staged = [] ∧ db' = db) ∨
      ∃ changed, publishChanges services db staged = .ok (db', changed) := by
  rw [step, publish] at h
  split at h
  · rename_i hempty
    cases h
    exact .inl ⟨isEmpty_iff.mp hempty, rfl⟩
  · cases hpublish : publishChanges services db staged with
    | error reason =>
      rw [hpublish] at h
      cases h
    | ok result =>
      obtain ⟨next, changed⟩ := result
      rw [hpublish] at h
      cases h
      exact .inr ⟨changed, rfl⟩

theorem blob_of_durableKept {blobs : List BlobRow} (h : durableKept db.blobs blobs = true)
    {root : Hash} {row : BlobRow} (hrow : db.blob root = some row) (hdurable : row.durable = true) :
    ∃ kept, ({ db with blobs := blobs } : Db).blob root = some kept ∧
      kept.durable = true ∧ kept.size = row.size := by
  have hmem := mem_of_find?_eq_some hrow
  have hroot : row.root = root := by simpa using find?_some hrow
  have hkept := all_eq_true.mp h row hmem
  rw [hdurable, hroot] at hkept
  cases hfind : blobs.find? (fun kept => kept.root = root) with
  | none =>
    rw [hfind] at hkept
    cases hkept
  | some kept =>
    rw [hfind] at hkept
    simp only [Bool.not_true, Bool.false_or, Option.any_some, Bool.and_eq_true, beq_iff_eq] at hkept
    exact ⟨kept, hfind, hkept⟩

theorem Db.InStep.step (hservices : services.Documented) {action : Action} (h : db.InStep services)
    (hstep : step services db action = some db') : db'.InStep services := by
  cases action with
  | publish staged =>
    obtain ⟨-, rfl⟩ | ⟨changed, hpublish⟩ := step_publish_eq_some hstep
    · exact h
    · exact h.publishChanges hservices hpublish
  | store blobs =>
    rw [Publication.step] at hstep
    split at hstep
    · rename_i hkept
      cases hstep
      refine ⟨h.shows, h.decodes, ?_⟩
      intro space path entry hnames hlive
      obtain ⟨content, hcontent, hheld, hadvertised⟩ := h.held hnames hlive
      obtain ⟨row, hrow, hdurable, hsize⟩ := hheld.durable
      obtain ⟨kept, hfound, hkeptDurable, hkeptSize⟩ := blob_of_durableKept hkept hrow hdurable
      exact ⟨content, hcontent,
        ⟨hheld.source, ⟨kept, hfound, hkeptDurable, hkeptSize.trans hsize⟩, hheld.pinned⟩,
        hadvertised⟩
    · cases hstep
  | putSource space =>
    cases hstep
    refine ⟨h.shows, h.decodes, ?_⟩
    intro other path entry hnames hlive
    obtain ⟨content, hcontent, hheld, hadvertised⟩ := h.held hnames hlive
    refine ⟨content, hcontent, ⟨?_, hheld.durable, hheld.pinned⟩, hadvertised⟩
    have hsource := hheld.source
    split
    · exact hsource
    · simp only [contains_iff_mem, mem_append] at hsource ⊢
      exact .inl hsource
  | removeSource space others =>
    rw [Publication.step] at hstep
    split at hstep
    · cases hstep
    · rename_i hnone
      cases hstep
      refine ⟨h.shows, h.decodes, ?_⟩
      intro other path entry hnames hlive
      obtain ⟨content, hcontent, hheld, hadvertised⟩ := h.held hnames hlive
      -- the space has no entries, so the entry is of another space
      have hother : other ≠ space := by
        rintro rfl
        apply hnone
        refine any_eq_true.mpr ⟨_, hnames.mem_entries hservices h.shows, ?_⟩
        simp
      have hholder : sourceHolder other ≠ sourceHolder space := fun heq =>
        hother (sourceHolder_injective heq)
      refine ⟨content, hcontent, ⟨?_, hheld.durable, ?_⟩, hadvertised⟩
      · have hsource := hheld.source
        simp only [contains_iff_mem] at hsource ⊢
        exact mem_filter.mpr ⟨hsource, by simpa using hother⟩
      · exact mem_filter.mpr ⟨hheld.pinned, by simp [hholder]⟩

theorem Plain.step (hservices : services.Documented) {action : Action} (h : Plain services db.trie)
    (hsound : Sound services db action) (hstep : step services db action = some db') :
    Plain services db'.trie := by
  cases action with
  | publish staged =>
    obtain ⟨-, rfl⟩ | ⟨changed, hpublish⟩ := step_publish_eq_some hstep
    · exact h
    · exact h.publishChanges hservices hsound hpublish
  | store blobs =>
    rw [Publication.step] at hstep
    split at hstep
    · cases hstep
      exact h
    · cases hstep
  | putSource space =>
    cases hstep
    exact h
  | removeSource space others =>
    rw [Publication.step] at hstep
    split at hstep
    · cases hstep
    · cases hstep
      exact h

/-! ## Runs -/

/-- An empty tree with nothing materialized.  Sources, content and holds may be
there already. -/
structure Db.Fresh (db : Db) : Prop where
  trie : db.trie = ∅
  entries : db.entries = []

theorem getElem?_fresh (h : db.Fresh) (key : List UInt8) : db.trie[key]? = none := by
  rw [h.trie]
  simp

theorem not_names_of_fresh (h : db.Fresh) {path : String} :
    ¬Names services db.trie space path entry := by
  rintro ⟨key, bytes, -, hvalue, -⟩
  rw [getElem?_fresh h] at hvalue
  cases hvalue

theorem Db.Fresh.inStep (h : db.Fresh) : db.InStep services where
  shows := by
    refine ⟨?_, ?_⟩
    · intro key value name hvalue
      rw [getElem?_fresh h] at hvalue
      cases hvalue
    · intro row
      rw [h.entries]
      constructor
      · intro hmem
        cases hmem
      · rintro ⟨key, value, name, hvalue, -⟩
        rw [getElem?_fresh h] at hvalue
        cases hvalue
  decodes := by
    intro key space path bytes _ hvalue
    rw [getElem?_fresh h] at hvalue
    cases hvalue
  held hnames := absurd hnames (not_names_of_fresh h)

theorem Db.Fresh.plain (h : db.Fresh) : Plain services db.trie :=
  fun _ _ _ hnames => absurd hnames (not_names_of_fresh h)

/-- The tree's advertisement of an object covers all of it and has its size. -/
def AdvertisesComplete (services : Services) (trie : Trie) (root : Hash) (size : UInt64) :
    Prop :=
  ∃ bytes ad, trie[blobKey root]? = some bytes ∧
    BlobAd.decode services.postcard bytes = some ad ∧ ad.isComplete = true ∧ ad.size = size

theorem Advertised.complete (hservices : services.Documented) {trie : Trie} {root : Hash}
    {size : UInt64} (h : Advertised services trie root size) :
    AdvertisesComplete services trie root size :=
  ⟨_, BlobAd.complete size, h,
    BlobAd.decode_encode hservices.postcard (BlobAd.length_spans_complete size),
    BlobAd.isComplete_complete size, rfl⟩

/-- Publication keeps entries, advertisements and holds in step.  In every state
a run reaches, each live file in a configured source space is advertised whole
with its size and held by a pin of the space.  If the run stages no tombstone
that names content, a pin that remains of a space the next batch touches is
named by a live entry of the space. -/
theorem publication_in_step (hservices : services.Documented)
    {start : Db} (hstart : start.Fresh) {actions : List Action} {db : Db}
    (hrun : run (step services) start actions = some db) :
    (∀ space path entry, db.sources.contains space = true →
      Names services db.trie space path entry → entry.kind.hasContent = true →
      ∃ content, entry.content = some content ∧
        AdvertisesComplete services db.trie content entry.size ∧
        ∃ pin ∈ db.pins, pin.root = content ∧ pin.holder = sourceHolder space) ∧
    (RunMeets (step services) (Sound services) start actions →
      ∀ staged db', Sound services db (.publish staged) →
        step services db (.publish staged) = some db' →
        ∀ space, Touches services staged space →
        ∀ pin ∈ db'.pins, pin.holder = sourceHolder space →
        ∃ path entry, Names services db'.trie space path entry ∧
          entry.isTombstone = false ∧ entry.content = some pin.root) := by
  have hinStep : db.InStep services :=
    run_invariant (fun db : Db => db.InStep services)
      (fun _ _ _ h hstep => h.step hservices hstep) hstart.inStep hrun
  constructor
  · intro space path entry _ hnames hlive
    obtain ⟨content, hcontent, hheld, hadvertised⟩ := hinStep.held hnames hlive
    exact ⟨content, hcontent, hadvertised.complete hservices, _, hheld.pinned, rfl, rfl⟩
  · intro hmeets staged db' hsound hstep space htouches pin hpin hholder
    have hplain : Plain services db.trie :=
      run_invariant_of_meets (fun db : Db => Plain services db.trie)
        (fun _ _ _ h hguard hnext => h.step hservices hguard hnext) hstart.plain hmeets hrun
    have hplain' : Plain services db'.trie := hplain.step hservices hsound hstep
    obtain ⟨rfl, -⟩ | ⟨changed, hpublish⟩ := step_publish_eq_some hstep
    · obtain ⟨key, value, ordinary, path, hmem, -⟩ := htouches
      cases hmem
    · obtain ⟨path, entry, hnames, hcontent⟩ :=
        named_of_remaining_pin hservices hinStep hpublish htouches hpin hholder
      refine ⟨path, entry, hnames, Bool.eq_false_iff.mpr fun htombstone => ?_, hcontent⟩
      rw [hplain' hnames htombstone] at hcontent
      cases hcontent

/-- Text of the examples below is composed already. -/
private def plainServices : Services where
  postcard := .specified
  unicode := ⟨fun _ => true, id⟩
  remoteUploadParts := false

private theorem plainServices_documented : plainServices.Documented where
  postcard := Postcard.documented_specified
  unicode := ⟨fun _ => ⟨fun _ => rfl, fun _ => rfl⟩, fun _ => rfl⟩

private def noteRoot : Hash := ⟨List.replicate 32 7, by decide⟩

private def noteKey : List UInt8 := fileKeyBytes "docs" "note"

/-- One durable object of five bytes, and a source. -/
private def docsDb : Db where
  trie := ∅
  entries := []
  sources := ["docs"]
  blobs := [⟨noteRoot, 5, true, true, [(0, 5)]⟩]
  pins := []

private def publishNote : StagedChange :=
  .record noteKey (some ((FileEntry.file 5 9 noteRoot 1).encode .specified)) (by decide)

private def buryNote : StagedChange :=
  .record noteKey
    (some ({ FileEntry.tombstone 10 2 none with content := some noteRoot }.encode .specified))
    (by decide)

private def publishCopy : StagedChange :=
  .record (fileKeyBytes "docs" "copy")
    (some ((FileEntry.file 5 9 noteRoot 1).encode .specified)) (by decide)

private theorem docsDb_fresh : docsDb.Fresh := ⟨rfl, rfl⟩

private theorem touches_docs {key : List UInt8} {value : Option (List UInt8)}
    {ordinary : [98, 58].isPrefixOf key = false} (path : String)
    (h : parseFileKey plainServices.unicode key = .ok ("docs", path)) :
    Touches plainServices [.record key value ordinary] "docs" :=
  ⟨key, value, ordinary, path, mem_cons_self, h⟩

/-- The note is advertised and held, and when a copy of it is published the pin
that remains is named by a live entry. -/
theorem publication_in_step_note :
    ∃ db, run (step plainServices) docsDb [.publish [publishNote]] = some db ∧
      (∃ content, (FileEntry.file 5 9 noteRoot 1).content = some content ∧
        AdvertisesComplete plainServices db.trie content 5 ∧
        ∃ pin ∈ db.pins, pin.root = content ∧ pin.holder = sourceHolder "docs") ∧
      ∃ db', step plainServices db (.publish [publishCopy]) = some db' ∧
        ∃ pin ∈ db'.pins, pin.holder = sourceHolder "docs" ∧
          ∃ path entry, Names plainServices db'.trie "docs" path entry ∧
            entry.isTombstone = false ∧ entry.content = some pin.root := by
  have hresult : ((run (step plainServices) docsDb [.publish [publishNote]]).any fun db =>
      db.sources.contains "docs" &&
        db.trie[noteKey]? == some ((FileEntry.file 5 9 noteRoot 1).encode .specified) &&
        (step plainServices db (.publish [publishCopy])).any fun db' =>
          db'.pins.contains ⟨noteRoot, sourceHolder "docs", none⟩) = true := by
    decide +kernel
  obtain ⟨db, hrun, hcheck⟩ := (Option.any_eq_true ..).mp hresult
  simp only [Bool.and_eq_true, beq_iff_eq] at hcheck
  obtain ⟨⟨hsource, hvalue⟩, hcopy⟩ := hcheck
  obtain ⟨db', hstep, hpin⟩ := (Option.any_eq_true ..).mp hcopy
  rw [contains_iff_mem] at hpin
  obtain ⟨hlive, hremains⟩ :=
    publication_in_step plainServices_documented docsDb_fresh hrun
  have hnames : Names plainServices db.trie "docs" "note" (FileEntry.file 5 9 noteRoot 1) :=
    ⟨noteKey, _, by decide +kernel, hvalue, FileEntry.decodeEntry_encode _⟩
  have hsound : Sound plainServices docsDb (.publish [publishNote]) := by
    intro change hmem
    rw [mem_singleton] at hmem
    subst hmem
    decide +kernel
  have hsoundCopy : Sound plainServices db (.publish [publishCopy]) := by
    intro change hmem
    rw [mem_singleton] at hmem
    subst hmem
    decide +kernel
  refine ⟨db, hrun, hlive "docs" "note" _ hsource hnames rfl, db', hstep, _, hpin, rfl, ?_⟩
  exact hremains ⟨hsound, fun _ _ => trivial⟩ [publishCopy] db' hsoundCopy hstep "docs"
    (touches_docs "copy" (by decide +kernel)) _ hpin rfl

/-- Every entry of the tree is a tombstone. -/
private def allDead (trie : Trie) : Bool :=
  trie.toList.all fun (key, bytes) =>
    match parseFileKey plainServices.unicode key,
      FileEntry.decodeEntry plainServices.postcard bytes with
    | .ok _, some entry => entry.isTombstone
    | _, _ => true

private theorem isTombstone_of_allDead {trie : Trie} (h : allDead trie = true) {path : String}
    (hnames : Names plainServices trie space path entry) : entry.isTombstone = true := by
  obtain ⟨key, bytes, hparse, hvalue, hdecode⟩ := hnames
  have hmem := Std.TreeMap.mem_toList_iff_getElem?_eq_some.mpr hvalue
  have hdead := all_eq_true.mp h (key, bytes) hmem
  simpa only [hparse, hdecode] using hdead

/-- A note is published and then replaced by a tombstone that still names its
content.  The second batch touches the space, the pin remains, and no live entry
names the content. -/
theorem tombstone_keeps_pin :
    ∃ db, docsDb.Fresh ∧
      run (step plainServices) docsDb [.publish [publishNote], .publish [buryNote]] = some db ∧
      Touches plainServices [buryNote] "docs" ∧
      ⟨noteRoot, sourceHolder "docs", none⟩ ∈ db.pins ∧
      ∀ path entry, Names plainServices db.trie "docs" path entry → entry.isTombstone = true := by
  have hrun : ∃ db,
      run (step plainServices) docsDb [.publish [publishNote], .publish [buryNote]] =
        some db ∧ ⟨noteRoot, sourceHolder "docs", none⟩ ∈ db.pins ∧ allDead db.trie = true := by
    have hresult : ((run (step plainServices) docsDb
        [.publish [publishNote], .publish [buryNote]]).any fun db =>
          db.pins.contains ⟨noteRoot, sourceHolder "docs", none⟩ && allDead db.trie) = true := by
      decide +kernel
    obtain ⟨db, hdb, hcheck⟩ := (Option.any_eq_true ..).mp hresult
    rw [Bool.and_eq_true, contains_iff_mem] at hcheck
    exact ⟨db, hdb, hcheck⟩
  obtain ⟨db, hdb, hpin, hdead⟩ := hrun
  exact ⟨db, docsDb_fresh, hdb, touches_docs "note" (by decide +kernel), hpin,
    fun path entry hnames => isTombstone_of_allDead hdead hnames⟩

end Synch.Publication
