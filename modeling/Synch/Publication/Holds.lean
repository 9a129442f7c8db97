import Synch.Publication.Entries

/-!
# The loop over a batch

What one staged change does to the batch under construction, and the invariant
the loop keeps: every live file of the proposed tree is held by its source, and
its content either is advertised already or waits among the source roots.
-/

namespace Synch.Publication

open List Synch.Records Synch.Support

variable {services : Services}

/-! ## Holds -/

/-- A source of this node holds the object, which is durable with this size. -/
structure Held (db : Db) (space : String) (root : Hash) (size : UInt64) : Prop where
  source : db.sources.contains space = true
  durable : ∃ row, db.blob root = some row ∧ row.durable = true ∧ row.size = size
  pinned : ⟨root, sourceHolder space, none⟩ ∈ db.pins

/-- Only holds were added. -/
structure Db.Grows (db db' : Db) : Prop where
  trie : db'.trie = db.trie
  entries : db'.entries = db.entries
  sources : db'.sources = db.sources
  blobs : db'.blobs = db.blobs
  pins : ∀ {root holder}, ⟨root, holder, none⟩ ∈ db.pins → ⟨root, holder, none⟩ ∈ db'.pins

theorem Db.Grows.refl (db : Db) : db.Grows db :=
  ⟨rfl, rfl, rfl, rfl, id⟩

theorem Db.Grows.trans {a b c : Db} (hab : a.Grows b) (hbc : b.Grows c) : a.Grows c where
  trie := hbc.trie.trans hab.trie
  entries := hbc.entries.trans hab.entries
  sources := hbc.sources.trans hab.sources
  blobs := hbc.blobs.trans hab.blobs
  pins hpin := hbc.pins (hab.pins hpin)

variable {db : Db} {space : String} {root : Hash} {size : UInt64} {batch batch' : Batch}
    {key : List UInt8} {value : Option (List UInt8)}

theorem Held.withEntries (h : Held db space root size) (rows : List EntryRow) (trie : Trie) :
    Held { db with entries := rows, trie := trie } space root size :=
  ⟨h.source, h.durable, h.pinned⟩

theorem Held.mono {db' : Db} (h : Held db space root size) (hgrows : db.Grows db') :
    Held db' space root size where
  source := by rw [hgrows.sources]; exact h.source
  durable := by rw [Db.blob, hgrows.blobs]; exact h.durable
  pinned := hgrows.pins h.pinned

theorem holdSourceBlob_eq_ok {db' : Db} (h : db.holdSourceBlob space root size = .ok db') :
    db.Grows db' ∧ Held db' space root size := by
  rw [Db.holdSourceBlob] at h
  split at h
  · cases h
  rename_i hsource
  split at h
  · cases h
  rename_i row hrow
  split at h
  · cases h
  rename_i hdurable
  split at h
  · cases h
  rename_i hsize
  cases h
  refine ⟨⟨rfl, rfl, rfl, rfl, ?_⟩, ?_, ⟨row, hrow, ?_, ?_⟩, mem_cons_self⟩
  · intro other holder hmem
    by_cases hsame : other = root ∧ holder = sourceHolder space
    · rw [hsame.1, hsame.2]
      exact mem_cons_self
    · exact mem_cons_of_mem _ (mem_filter.mpr ⟨hmem, decide_eq_true hsame⟩)
  · simpa using hsource
  · simpa using hdurable
  · simpa using hsize

/-- What a record does before it is written into the trie. -/
structure Noted (services : Services) (batch batch' : Batch) (key : List UInt8)
    (value : Option (List UInt8)) : Prop where
  root : batch'.root = batch.root
  blobChanges : batch'.blobChanges = batch.blobChanges
  grows : batch.db.Grows batch'.db
  sourceRoots : batch.sourceRoots ⊆ batch'.sourceRoots
  changedSpaces : batch.changedSpaces ⊆ batch'.changedSpaces
  touched : ∀ {space path}, parseFileKey services.unicode key = .ok (space, path) →
    space ∈ batch'.changedSpaces
  entry : ∀ {space path bytes}, parseFileKey services.unicode key = .ok (space, path) →
    value = some bytes → ∃ entry,
      FileEntry.decodeEntry services.postcard bytes = some entry ∧
      (entry.kind.hasContent = true → ∃ content, entry.content = some content ∧
        Held batch'.db space content entry.size ∧ content ∈ batch'.sourceRoots)

/-- What the entry of a record does. -/
theorem noteEntry_eq_ok {bytes : List UInt8}
    (h : batch.noteEntry services space bytes = .ok batch') :
    (batch'.root = batch.root ∧ batch'.blobChanges = batch.blobChanges ∧
      batch'.changedSpaces = batch.changedSpaces) ∧ batch.db.Grows batch'.db ∧
    batch.sourceRoots ⊆ batch'.sourceRoots ∧
    ∃ entry, FileEntry.decodeEntry services.postcard bytes = some entry ∧
      (entry.kind.hasContent = true → ∃ content, entry.content = some content ∧
        Held batch'.db space content entry.size ∧ content ∈ batch'.sourceRoots) := by
  rw [Batch.noteEntry] at h
  split at h
  · cases h
  rename_i entry hentry
  split at h
  · split at h
    · cases h
    rename_i content hcontent
    obtain ⟨db, hhold, rfl⟩ := map_eq_ok h
    obtain ⟨hgrows, hheld⟩ := holdSourceBlob_eq_ok hhold
    exact ⟨⟨rfl, rfl, rfl⟩, hgrows, subset_cons_self .., entry, hentry,
      fun _ => ⟨content, hcontent, hheld, mem_cons_self⟩⟩
  · rename_i hkind
    cases h
    exact ⟨⟨rfl, rfl, rfl⟩, .refl _, List.Subset.refl _, entry, hentry,
      fun hlive => absurd hlive hkind⟩

theorem noteRecord_eq_ok (h : batch.noteRecord services key value = .ok batch') :
    Noted services batch batch' key value := by
  rw [Batch.noteRecord] at h
  split at h
  · rename_i hparse
    cases h
    refine ⟨rfl, rfl, .refl _, List.Subset.refl _, List.Subset.refl _, ?_, ?_⟩
    · intro space path hok
      rw [hparse] at hok
      cases hok
    · intro space path bytes hok
      rw [hparse] at hok
      cases hok
  · rename_i space path hparse
    split at h
    · cases h
      refine ⟨rfl, rfl, .refl _, List.Subset.refl _, subset_cons_self .., ?_, ?_⟩
      · intro space' path' hok
        rw [hparse] at hok
        cases hok
        exact mem_cons_self
      · intro space' path' bytes hok hvalue
        cases hvalue
    · rename_i bytes
      obtain ⟨⟨hroot, hblob, hchanged⟩, hgrows, hroots, entry, hentry, hlive⟩ :=
        noteEntry_eq_ok h
      refine ⟨hroot, hblob, hgrows, hroots, ?_, ?_, ?_⟩
      · rw [hchanged]
        exact subset_cons_self ..
      · intro space' path' hok
        rw [hparse] at hok
        cases hok
        rw [hchanged]
        exact mem_cons_self
      · intro space' path' bytes' hok hvalue
        rw [hparse] at hok
        cases hok
        cases hvalue
        exact ⟨entry, hentry, hlive⟩

theorem getElem?_insert (trie : Trie) (key key' value : List UInt8) :
    (trie.insert key value)[key']? = if key = key' then some value else trie[key']? := by
  rw [Std.TreeMap.getElem?_insert]
  simp only [Std.LawfulEqCmp.compare_eq_iff_eq]

theorem getElem?_erase (trie : Trie) (key key' : List UInt8) :
    (trie.erase key)[key']? = if key = key' then none else trie[key']? := by
  rw [Std.TreeMap.getElem?_erase]
  simp only [Std.LawfulEqCmp.compare_eq_iff_eq]

theorem getElem?_writeTrie (trie : Trie) (key key' : List UInt8) (value : Option (List UInt8)) :
    (Batch.writeTrie trie key value)[key']? = if key = key' then value else trie[key']? := by
  cases value with
  | none => exact getElem?_erase trie key key'
  | some value => exact getElem?_insert trie key key' value

theorem names_of_writeTrie {trie : Trie} {path : String} {entry : FileEntry}
    (h : Names services (Batch.writeTrie trie key value) space path entry) :
    (parseFileKey services.unicode key = .ok (space, path) ∧ ∃ bytes, value = some bytes ∧
        FileEntry.decodeEntry services.postcard bytes = some entry) ∨
      Names services trie space path entry := by
  obtain ⟨key', bytes, hparse, hvalue, hdecode⟩ := h
  rw [getElem?_writeTrie] at hvalue
  split at hvalue
  · rename_i hkey
    subst hkey
    exact .inl ⟨hparse, bytes, hvalue, hdecode⟩
  · exact .inr ⟨key', bytes, hparse, hvalue, hdecode⟩

/-! ## The loop -/

/-- The tree advertises the whole object with this size. -/
def Advertised (services : Services) (trie : Trie) (root : Hash) (size : UInt64) : Prop :=
  trie[blobKey root]? = some ((BlobAd.complete size).encode services.postcard)

/-- The loop's invariant. -/
structure Batch.Inv (services : Services) (batch : Batch) : Prop where
  decodes : AllDecode services batch.root
  held : ∀ {space path entry}, Names services batch.root space path entry →
    entry.kind.hasContent = true → ∃ content, entry.content = some content ∧
      Held batch.db space content entry.size ∧
      (Advertised services batch.root content entry.size ∨ content ∈ batch.sourceRoots)

theorem blobKey_ne_of_ordinary (h : [98, 58].isPrefixOf key = false) (root : Hash) :
    key ≠ blobKey root := by
  rintro rfl
  simp [blobKey, isPrefixOf] at h

theorem AllDecode.writeTrie {trie : Trie} (h : AllDecode services trie)
    (hvalue : ∀ {space path bytes}, parseFileKey services.unicode key = .ok (space, path) →
      value = some bytes → ∃ entry, FileEntry.decodeEntry services.postcard bytes = some entry) :
    AllDecode services (Batch.writeTrie trie key value) := by
  intro key' space path bytes hparse hfound
  have hfound' := hfound
  rw [getElem?_writeTrie] at hfound
  have hentry : ∃ entry, FileEntry.decodeEntry services.postcard bytes = some entry := by
    split at hfound
    · rename_i hkey
      subst hkey
      exact hvalue hparse hfound
    · obtain ⟨entry, -, hdecode⟩ := h hparse hfound
      exact ⟨entry, hdecode⟩
  obtain ⟨entry, hdecode⟩ := hentry
  exact ⟨entry, ⟨key', bytes, hparse, hfound', hdecode⟩, hdecode⟩

theorem Batch.Inv.applyChange {change : StagedChange} (h : batch.Inv services)
    (happly : batch.applyChange services change = .ok batch') : batch'.Inv services := by
  cases change with
  | blob root intent =>
    cases happly
    exact ⟨h.decodes, h.held⟩
  | record key value ordinary =>
    obtain ⟨noted, hnote, rfl⟩ := map_eq_ok happly
    have hnoted := noteRecord_eq_ok hnote
    refine ⟨?_, ?_⟩
    · rw [hnoted.root]
      refine h.decodes.writeTrie fun hparse hvalue => ?_
      obtain ⟨entry, hdecode, -⟩ := hnoted.entry hparse hvalue
      exact ⟨entry, hdecode⟩
    · intro space path entry hnames hlive
      obtain ⟨hparse, bytes, hvalue, hdecode⟩ | hnames := names_of_writeTrie hnames
      · obtain ⟨entry', hdecode', hholds⟩ := hnoted.entry hparse hvalue
        rw [hdecode] at hdecode'
        cases hdecode'
        obtain ⟨content, hcontent, hheld, hwaits⟩ := hholds hlive
        exact ⟨content, hcontent, hheld, .inr hwaits⟩
      · rw [hnoted.root] at hnames
        obtain ⟨content, hcontent, hheld, hshown⟩ := h.held hnames hlive
        refine ⟨content, hcontent, hheld.mono hnoted.grows, ?_⟩
        refine hshown.imp (fun hadvertised => ?_) fun hwaits => hnoted.sourceRoots hwaits
        have hother := blobKey_ne_of_ordinary ordinary content
        rw [Advertised, getElem?_writeTrie, if_neg hother, hnoted.root]
        exact hadvertised

/-- The tables a batch leaves as they are. -/
theorem grows_of_applyChange {change : StagedChange}
    (h : batch.applyChange services change = .ok batch') : batch.db.Grows batch'.db := by
  cases change with
  | blob root intent =>
    cases h
    exact .refl _
  | record key value ordinary =>
    obtain ⟨noted, hnote, rfl⟩ := map_eq_ok h
    exact (noteRecord_eq_ok hnote).grows

end Synch.Publication
