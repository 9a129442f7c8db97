import Mathlib.Data.Fintype.Defs
import Synch.Support.Terminated
import Synch.Support.Utf8
import Synch.Tree.Unified

/-!
# Listings of the unified tree

A listing reads the paths of a space that extend a prefix, in path order, from a
position on and no more of them than a limit.  The prefix becomes a range of paths:
from the prefix itself up to the prefix with its last character raised.
-/

namespace Synch.Tree

open List Synch.Support

/-! ## The range of a prefix -/

/-- `char::from_u32`. -/
def charOfCode (code : Nat) : Option Char :=
  if code.isValidChar then some (Char.ofNat code) else none

/-- The next character: past the surrogates, and none above the last. -/
def raise (last : Char) : Option Char :=
  let code := last.toNat + 1
  charOfCode (if 0xd800 ≤ code ∧ code ≤ 0xdfff then max 0xe000 code else code)

/-- The successor of a text whose characters are given from the last one on. -/
def upperBoundOfReversed : List Char → Option (List Char)
  | [] => none
  | last :: head =>
    match raise last with
    | some next => some (next :: head).reverse
    | none => upperBoundOfReversed head

def prefixUpperBound (stem : String) : Option String :=
  (upperBoundOfReversed stem.toList.reverse).map String.ofList

theorem toNat_ofNat_of_valid {code : Nat} (h : code.isValidChar) :
    (Char.ofNat code).toNat = code := by
  rw [Char.ofNat, dif_pos h]
  rfl

theorem char_lt_iff {c d : Char} : c < d ↔ c.toNat < d.toNat := by
  rw [Char.lt_def, UInt32.lt_iff_toNat_lt]
  rfl

/-- The raised character is the next one. -/
theorem covBy_of_raise {c d : Char} (h : raise c = some d) : c ⋖ d := by
  simp only [raise, charOfCode, Option.ite_none_right_eq_some] at h
  obtain ⟨hvalid, h⟩ := h
  have hd := congrArg Char.toNat (Option.some.inj h)
  rw [toNat_ofNat_of_valid hvalid] at hd
  refine ⟨by rw [char_lt_iff]; split at hd <;> omega, fun e hce hed => ?_⟩
  rw [char_lt_iff] at hce hed
  have he : e.toNat.isValidChar := e.valid
  simp only [Nat.isValidChar] at he
  split at hd <;> omega

theorem le_of_raise_eq_none {c : Char} (h : raise c = none) (d : Char) : d ≤ c := by
  rw [← not_lt, char_lt_iff]
  intro hlt
  have hc : c.toNat.isValidChar := c.valid
  have hd : d.toNat.isValidChar := d.valid
  simp only [raise, charOfCode, ite_eq_right_iff, reduceCtorEq, imp_false] at h
  apply h
  simp only [Nat.isValidChar] at hc hd ⊢
  split <;> omega

theorem mem_range_iff_prefix_of_reversed (reversed path : List Char) :
    reversed.reverse ≤ path ∧ (∀ upper ∈ upperBoundOfReversed reversed, path < upper) ↔
      reversed.reverse <+: path := by
  induction reversed with
  | nil => simp [upperBoundOfReversed, le_of_prefix]
  | cons last head ih =>
    rw [reverse_cons]
    cases hraise : raise last with
    | some next =>
      rw [← between_covBy_iff_prefix (covBy_of_raise hraise)]
      simp [upperBoundOfReversed, hraise]
    | none =>
      have htop := le_of_raise_eq_none hraise
      simp only [upperBoundOfReversed, hraise]
      constructor
      · rintro ⟨hle, hupper⟩
        have hhead : head.reverse <+: path :=
          ih.mp ⟨( le_of_prefix (prefix_append _ _)).trans hle, hupper⟩
        exact ( append_top_le_iff_prefix htop hhead).mp hle
      · intro hpath
        have hhead : head.reverse <+: path := (prefix_append _ _).trans hpath
        exact ⟨ le_of_prefix hpath, (ih.mpr hhead).2⟩

/-- The range that a prefix is read as holds its extensions. -/
theorem mem_range_iff_prefix (stem path : String) :
    stem ≤ path ∧ (∀ upper ∈ prefixUpperBound stem, path < upper) ↔
      stem.toList <+: path.toList := by
  have hrange := mem_range_iff_prefix_of_reversed stem.toList.reverse path.toList
  rw [reverse_reverse] at hrange
  rw [← hrange, String.le_iff_toList_le]
  simp only [prefixUpperBound, Option.mem_def, Option.map_eq_some_iff, forall_exists_index,
    and_imp, forall_apply_eq_imp_iff₂, String.lt_iff_toList_lt, String.toList_ofList]

/-- The bound of a prefix and the prefix itself delimit its extensions in the order of bytes, the
order of the paths in the store. -/
theorem prefixUpperBound_delimits (stem path : String) :
    stem.toList <+: path.toList ↔
      stem.toByteArray.data.toList ≤ path.toByteArray.data.toList ∧
        ∀ upper ∈ prefixUpperBound stem,
          path.toByteArray.data.toList < upper.toByteArray.data.toList := by
  have hle : stem.toByteArray.data.toList ≤ path.toByteArray.data.toList ↔ stem ≤ path :=
    toByteArray_lt_iff.not.trans not_lt
  simp only [← mem_range_iff_prefix, hle, toByteArray_lt_iff]

/-! ## The listing -/

/-- A space of the unified tree as one reading of the clock sees it.  Neither an
origin's canonical text nor a path is empty. -/
structure UnifiedTree where
  space : String
  entries : List EntryRow
  now : Int
  origin_ne : ∀ entry ∈ entries, entry.origin ≠ ""
  path_ne : ∀ entry ∈ entries, entry.path ≠ ""

namespace UnifiedTree

variable (tree : UnifiedTree)

/-- The distinct paths under a prefix and past a position, in order. -/
def unifiedPaths (stem : String) (startAfter : Option String) (limit : Option Nat) : List String :=
  let rows := tree.entries.filter fun entry =>
    entry.space = tree.space ∧ stem ≤ entry.path ∧
      (∀ upper ∈ prefixUpperBound stem, entry.path < upper) ∧
        ∀ after ∈ startAfter, after < entry.path
  let paths := sortBy id (rows.map EntryRow.path).dedup
  match limit with
  | none => paths
  | some limit => paths.take limit

def versions (path : String) : VersionSet :=
  let rows := tree.entries.filter fun entry =>
    entry.space = tree.space ∧ entry.path = path
  VersionSet.fromEntries tree.space path rows tree.now

/-- One version set per path. -/
def unifiedListing (stem : String) (startAfter : Option String)
    (limit : Option Nat) : List VersionSet :=
  (tree.unifiedPaths stem startAfter limit).map tree.versions

def resolveSet (set : VersionSet) (policy : VersionPolicy) (now : Int) : Option EntryRow :=
  match set.select policy now with
  | .selected entry => some entry
  | .absent => none
  | .divergent => none

def pathsUnder (stem : String) : List String :=
  tree.unifiedPaths stem none none

variable {tree : UnifiedTree} {path : String} {policy : VersionPolicy} {now : Int}
    {row : EntryRow}

theorem mem_unifiedPaths {stem : String} {startAfter : Option String} :
    path ∈ tree.unifiedPaths stem startAfter none ↔
      (∃ entry ∈ tree.entries, entry.space = tree.space ∧ entry.path = path) ∧
        stem.toList <+: path.toList ∧ ∀ after ∈ startAfter, after < path := by
  simp only [unifiedPaths, mem_sortBy, mem_dedup, mem_map, mem_filter,
    decide_eq_true_eq, ← mem_range_iff_prefix]
  constructor
  · rintro ⟨entry, ⟨hmem, hspace, hstem, hupper, hafter⟩, rfl⟩
    exact ⟨⟨entry, hmem, hspace, rfl⟩, ⟨hstem, hupper⟩, hafter⟩
  · rintro ⟨⟨entry, hmem, hspace, rfl⟩, ⟨hstem, hupper⟩, hafter⟩
    exact ⟨entry, ⟨hmem, hspace, hstem, hupper, hafter⟩, rfl⟩

theorem pairwise_sortBy_dedup (paths : List String) : (sortBy id paths.dedup).Pairwise (· < ·) := by
  have hle := sortBy_pairwise id paths.dedup
  have hnodup := (sortBy_perm id paths.dedup).nodup_iff.mpr (nodup_dedup paths)
  exact (hle.and hnodup).imp fun h => lt_of_le_of_ne h.1 h.2

theorem unifiedPaths_pairwise (tree : UnifiedTree) (stem : String) (startAfter : Option String) :
    (tree.unifiedPaths stem startAfter none).Pairwise (· < ·) :=
  pairwise_sortBy_dedup _

theorem pathsUnder_pairwise (tree : UnifiedTree) (stem : String) :
    (tree.pathsUnder stem).Pairwise (· < ·) :=
  tree.unifiedPaths_pairwise stem none

/-- A listing past a position is the part of the whole listing past it. -/
theorem unifiedPaths_eq_filter (tree : UnifiedTree) (stem : String) (startAfter : Option String) :
    tree.unifiedPaths stem startAfter none =
      (tree.pathsUnder stem).filter fun path => ∀ after ∈ startAfter, after < path := by
  have hfilter := (tree.pathsUnder_pairwise stem).filter
    fun path => decide (∀ after ∈ startAfter, after < path)
  have hpaths := tree.unifiedPaths_pairwise stem startAfter
  have hperm := (perm_ext_iff_of_nodup (hpaths.imp ne_of_lt) (hfilter.imp ne_of_lt)).mpr
    fun path => by
      simp only [mem_unifiedPaths, mem_filter, pathsUnder, decide_eq_true_eq]
      simp [and_assoc]
  exact hperm.eq_of_pairwise (fun a b _ _ hab hba => absurd hba hab.asymm) hpaths hfilter

theorem unifiedListing_some
    (tree : UnifiedTree) (stem : String) (startAfter : Option String) (limit : Nat) :
    tree.unifiedListing stem startAfter (some limit) =
      ((((tree.pathsUnder stem).filter fun path => ∀ after ∈ startAfter, after < path).take
        limit).map tree.versions) := by
  rw [← unifiedPaths_eq_filter]
  rfl

@[simp] theorem versions_path (tree : UnifiedTree) (path : String) :
    (tree.versions path).path = path :=
  rfl

theorem exists_entry_of_exists (h : (tree.versions path).exists? = true) :
    ∃ entry ∈ tree.entries, entry.space = tree.space ∧ entry.path = path := by
  by_contra hnone
  have hrows : tree.entries.filter (fun entry =>
      entry.space = tree.space ∧ entry.path = path) = [] := by
    rw [filter_eq_nil_iff]
    intro entry hentry hrow
    exact hnone ⟨entry, hentry, by simpa using hrow⟩
  have hversions : (tree.versions path).versions = [] := by
    unfold versions
    rw [hrows]
    unfold VersionSet.fromEntries retainVersions groupEntries sortBy
    simp
  unfold VersionSet.exists? at h
  simp [hversions] at h

theorem mem_entries_of_select {set : VersionSet} (h : set.select policy now = .selected row) :
    row ∈ set.entries := by
  have hnewest : ∀ {row}, set.selectNewest now = .selected row → row ∈ set.entries := by
    intro row h
    unfold VersionSet.selectNewest at h
    dsimp only at h
    split at h
    · rename_i entry hmax
      rw [← Selection.selected.inj h]
      exact (mem_filter.mp (maxBy_spec _ hmax).1).1
    · cases h
  unfold VersionSet.select at h
  split at h
  · split at h
    · rename_i entry hfind
      rw [← Selection.selected.inj h]
      exact mem_of_find?_eq_some hfind
    · cases h
  · split at h
    · cases h
    · exact hnewest h
  · exact hnewest h

theorem resolveSet_eq_some_iff {set : VersionSet} :
    resolveSet set policy now = some row ↔ set.select policy now = .selected row := by
  unfold resolveSet
  split <;> simp_all

/-- What resolves is an entry of the path. -/
theorem mem_of_resolveSet (h : resolveSet (tree.versions path) policy now = some row) :
    row ∈ tree.entries ∧ row.space = tree.space ∧ row.path = path := by
  have hmem := mem_entries_of_select (resolveSet_eq_some_iff.mp h)
  have hfilter := (mem_sortBy _).mp hmem
  simpa using hfilter

end UnifiedTree

def EntryRow.emptyFile (path : String) : EntryRow where
  origin := "nas@x.example"
  space := "media"
  path := path
  kind := .file
  size := 0
  mtimeNs := 0
  unixMode := none
  content := none
  seq := 1
  prev := none
  symlinkTarget := none

end Synch.Tree
