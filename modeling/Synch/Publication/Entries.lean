import Synch.Publication.Model

/-!
# The entries of a tree

The entries a trie names, as the record code reads them, and their rows in the
materialized view.  The record code parses keys and decodes records on its own;
where it does, the view's row has the entry's columns.
-/

namespace Synch.Publication

open Synch.Records Synch.Support

variable {services : Services}

/-- The trie holds this entry at a path of the space. -/
def Names (services : Services) (trie : Trie) (space path : String) (entry : FileEntry) :
    Prop :=
  ∃ key bytes, parseFileKey services.unicode key = .ok (space, path) ∧
    trie[key]? = some bytes ∧ FileEntry.decodeEntry services.postcard bytes = some entry

/-- Every record under a file's key is an entry. -/
def AllDecode (services : Services) (trie : Trie) : Prop :=
  ∀ ⦃key space path bytes⦄, parseFileKey services.unicode key = .ok (space, path) →
    trie[key]? = some bytes → ∃ entry, Names services trie space path entry ∧
      FileEntry.decodeEntry services.postcard bytes = some entry

variable {space path : String} {entry : FileEntry} {row : EntryRow}

theorem entryOf_eq_some_iff (hservices : services.Documented) {key : List UInt8} :
    Db.entryOf services key = some (space, path) ↔
      parseFileKey services.unicode key = .ok (space, path) := by
  rw [parseFileKey_eq_ok_iff_core hservices.unicode, Db.entryOf]
  constructor
  · intro h
    split at h
    · split at h
      · cases h
      · rename_i hcore
        split at h
        · rename_i hnfc
          cases h
          exact ⟨hcore, hnfc⟩
        · cases h
    · cases h
  · rintro ⟨hcore, hnfc⟩
    have hkey := (Core.fileKey_eq_some_iff.mp hcore).2.2
    have hfirst : key[0]? = some 102 := by
      have hlist : key = fileKeyBytes space path := hkey
      rw [hlist]
      rfl
    have hcore : Core.fileKey (arrayOf key) = some (space, path) := hcore
    rw [if_pos hfirst, hcore]
    exact if_pos hnfc

theorem parseFileKey_injective (hservices : services.Documented) {a b : List UInt8}
    {name : String × String} (ha : parseFileKey services.unicode a = .ok name)
    (hb : parseFileKey services.unicode b = .ok name) : a = b := by
  obtain ⟨space, path⟩ := name
  rw [parseFileKey_eq_ok_iff hservices.unicode] at ha hb
  rw [ha.2.2.2, hb.2.2.2]

/-- No key names both a file and an object. -/
theorem ne_blobKey_of_parse (hservices : services.Documented) {key : List UInt8}
    (h : parseFileKey services.unicode key = .ok (space, path)) (root : Hash) :
    key ≠ blobKey root := by
  rw [((parseFileKey_eq_ok_iff hservices.unicode).mp h).2.2.2]
  intro heq
  injection heq with hfirst
  exact absurd hfirst (by decide)

section

variable (hservices : services.Documented)
include hservices

theorem entriesView_lawful : (Db.entriesView services).Lawful where
  named_injective ha hb :=
    parseFileKey_injective hservices ((entryOf_eq_some_iff hservices).mp ha)
      ((entryOf_eq_some_iff hservices).mp hb)
  nameOf_row := by
    intro name value row hrow
    change Db.entryRow name value = .ok row at hrow
    rw [Db.entryRow] at hrow
    split at hrow
    · cases hrow
    · cases hrow
      rfl

/-- The row of a record the record code reads. -/
theorem entryRow_of_decodeEntry {name : String × String} {bytes : List UInt8}
    (hdecode : FileEntry.decodeEntry services.postcard bytes = some entry)
    (hrow : Db.entryRow name bytes = .ok row) : row = ⟨name.1, name.2, entry.columns⟩ := by
  have hbytes : FileEntry.decodeEntry services.postcard (arrayOf bytes).data.toList =
      some entry := hdecode
  have hfile := FileEntry.file_of_decodeEntry hservices.postcard hbytes
  rw [Db.entryRow] at hrow
  split at hrow
  · cases hrow
  · rename_i file _ hread
    cases hrow
    rw [hread] at hfile
    split at hfile
    · cases hfile
    · injection hfile with hfile
      rw [show file = entry.read from hfile]
      rfl

theorem Names.mem_entries {trie : Trie} {rows : List EntryRow}
    (hshows : (Db.entriesView services).Shows rows (trie[·]?))
    (h : Names services trie space path entry) : ⟨space, path, entry.columns⟩ ∈ rows := by
  obtain ⟨key, bytes, hparse, hvalue, hdecode⟩ := h
  have hnamed := (entryOf_eq_some_iff hservices).mpr hparse
  obtain ⟨row, hrow⟩ := hshows.computed hvalue hnamed
  have heq := entryRow_of_decodeEntry hservices hdecode hrow
  rw [hshows.mem_iff]
  exact ⟨key, bytes, (space, path), hvalue, hnamed, heq ▸ hrow⟩

theorem names_of_mem_entries {trie : Trie} {rows : List EntryRow}
    (hshows : (Db.entriesView services).Shows rows (trie[·]?))
    (hdecodes : AllDecode services trie) (hrow : row ∈ rows) :
    ∃ entry, Names services trie row.space row.path entry ∧ row.columns = entry.columns := by
  obtain ⟨key, bytes, ⟨space, path⟩, hvalue, hnamed, hcomputed⟩ := hshows.mem_iff.mp hrow
  have hparse := (entryOf_eq_some_iff hservices).mp hnamed
  obtain ⟨entry, hnames, hdecode⟩ := hdecodes hparse hvalue
  have heq := entryRow_of_decodeEntry hservices hdecode hcomputed
  subst heq
  exact ⟨entry, hnames, rfl⟩

end

theorem lookup_content (entry : FileEntry) :
    entry.columns.lookup "content" =
      some (nullable Cell.blob (entry.content.map fun root => arrayOf root.bytes)) := by
  simp [FileEntry.columns, List.lookup_cons]

theorem has_content_iff {root : Hash} (h : row.columns = entry.columns) :
    row.has "content" (rootCell root) = true ↔ entry.content = some root := by
  rw [EntryRow.has, h, lookup_content, beq_iff_eq, Option.some.injEq]
  constructor
  · intro hcell
    cases hcontent : entry.content with
    | none =>
      rw [hcontent] at hcell
      cases hcell
    | some found =>
      rw [hcontent] at hcell
      injection hcell with hbytes
      have hlist : found.bytes = root.bytes := by
        have harray := congrArg (fun bytes : ByteArray => bytes.data.toList) hbytes
        exact harray
      rw [Hash.eq_of_bytes hlist]
  · intro hcontent
    rw [hcontent]
    rfl

theorem has_size (h : row.columns = entry.columns) :
    row.has "size" (.integer entry.size.toInt64) = true := by
  rw [EntryRow.has, h]
  simp [FileEntry.columns, List.lookup_cons]

end Synch.Publication
