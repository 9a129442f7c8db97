import Synch.Support.Paging
import Synch.Support.Text
import Synch.Tree.Listing

/-!
# One directory of the unified tree, page by page

A directory view folds the flat listing: paths with a separator left become one entry
for the subdirectory.  The fold reads the listing in batches and answers in pages.
Once a subdirectory's entry is out, the position moves to the successor of its
subtree, from where both the next batch and the next page read on.
-/

namespace Synch.Cloud

open Synch.Support Synch.Tree

/-! ## The fold -/

structure VersionJson where
  root : Option String
  kind : String
  symlinkTarget : Option String
  size : Nat
  mtimeNs : Int
  seq : Nat
  attestors : List String
deriving DecidableEq, Repr

/-- One entry of a directory listing. -/
structure EntryJson where
  name : String
  path : String
  kind : String
  size : Nat
  mtimeNs : Int
  versions : Nat
  origin : String
  root : Option String
  all : List VersionJson
deriving DecidableEq, Repr

def kindName : Records.EntryKind → String
  | .file => "file"
  | .dir => "dir"
  | .symlink => "symlink"
  | .tombstone => "tombstone"
  | .socket => "socket"

def versionsJson (set : VersionSet) : List VersionJson :=
  set.versions.map fun version =>
    { root := version.content.map Hash.toHex
      kind := kindName version.kind
      symlinkTarget := version.symlinkTarget
      size := version.size
      mtimeNs := version.mtimeNs
      seq := version.seq
      attestors := version.attestors }

def dirEntry (stem child : String) : EntryJson where
  name := child
  path := stem ++ child
  kind := "dir"
  size := 0
  mtimeNs := 0
  versions := 0
  origin := ""
  root := none
  all := []

/-- The entry of a path of the directory itself. -/
def rowEntry (all : Bool) (rest : String) (set : VersionSet) (row : EntryRow) : EntryJson where
  name := rest
  path := set.path
  kind := kindName row.kind
  size := row.size
  mtimeNs := row.mtimeNs
  versions := set.versions.length % 2 ^ 32
  origin := row.origin
  root := row.content.map Hash.toHex
  all := if all then versionsJson set else []

/-- What the fold has in hand: the entries of the page, the position, and the subtree
that is walked past. -/
structure Scan where
  entries : List EntryJson
  startAfter : Option String
  inside : Option String

def stripStem (stem path : String) : Option (List Char) :=
  if stem.toList <+: path.toList then some (path.toList.drop stem.toList.length) else none

/-- One turn of the fold, and whether it ends the page. -/
def visit
    (stem : String) (all : Bool) (now : Int) (pageLimit : Nat)
    (scan : Scan) (set : VersionSet) : Scan × Bool :=
  if scan.inside.any fun subtree => subtree.toList.isPrefixOf set.path.toList then
    (scan, false)
  else
    let scan := { scan with inside := none, startAfter := some set.path }
    if !set.exists? then (scan, false)
    else
      match stripStem stem set.path with
      | none => (scan, false)
      | some rest =>
        match splitOnce '/' rest with
        | some (child, _) =>
          let full := stem ++ String.ofList child
          let entries := scan.entries ++ [dirEntry stem (String.ofList child)]
          ({ entries := entries
             inside := some (full ++ "/")
             startAfter := some (full ++ "0") },
            decide (pageLimit ≤ entries.length))
        | none =>
          match UnifiedTree.resolveSet set .newest now with
          | none => (scan, false)
          | some row =>
            let entries := scan.entries ++ [rowEntry all (String.ofList rest) set row]
            ({ scan with entries := entries }, decide (pageLimit ≤ entries.length))

/-- One batch of the fold. -/
def visitAll
    (stem : String) (all : Bool) (now : Int) (pageLimit : Nat) :
    Scan → List VersionSet → Scan × Bool
  | scan, [] => (scan, false)
  | scan, set :: sets =>
    match visit stem all now pageLimit scan set with
    | (scan, true) => (scan, true)
    | (scan, false) => visitAll stem all now pageLimit scan sets

/-- The batches of a page, and whether the page ended at its limit.  Without enough
fuel there is no answer. -/
def collapseLoop
    (tree : UnifiedTree) (stem : String) (all : Bool) (pageLimit scanBatch : Nat) :
    Nat → Scan → Option (Scan × Bool)
  | 0, _ => none
  | fuel + 1, scan =>
    let batch := tree.unifiedListing stem scan.startAfter (some scanBatch)
    match visitAll stem all tree.now pageLimit scan batch with
    | (scan, true) => some (scan, true)
    | (scan, false) =>
      if batch.length < scanBatch then some (scan, false)
      else collapseLoop tree stem all pageLimit scanBatch fuel scan

/-- One page from a position: its entries, and where the next one resumes. -/
def collapse
    (tree : UnifiedTree) (stem : String) (all : Bool) (pageLimit scanBatch : Nat)
    (position : Option String) : Option (List EntryJson × Option String) :=
  let scan := { entries := [], startAfter := position, inside := none }
  (collapseLoop tree stem all pageLimit scanBatch (tree.entries.length + 1) scan).map
    fun (scan, more) => (scan.entries, if more then scan.startAfter else none)

/-! ## What a row shows -/

/-- The child of the directory that a path lies below. -/
def childOf (stem path : String) : Option String :=
  (stripStem stem path).bind fun rest =>
    (splitOnce '/' rest).map fun (child, _) => String.ofList child

/-- The entry that a version set adds. -/
def shownBy (stem : String) (all : Bool) (now : Int) (set : VersionSet) : Option EntryJson :=
  if !set.exists? then none
  else
    match stripStem stem set.path with
    | none => none
    | some rest =>
      match splitOnce '/' rest with
      | some (child, _) => some (dirEntry stem (String.ofList child))
      | none =>
        (UnifiedTree.resolveSet set .newest now).map (rowEntry all (String.ofList rest) set)

/-- The subtree that a row opens. -/
def subtreeOf (stem path : String) : Option String :=
  (childOf stem path).map fun child => stem ++ child ++ "/"

/-- The position past a row that adds an entry. -/
def seekKey (stem path : String) : String :=
  match childOf stem path with
  | some child => stem ++ child ++ "0"
  | none => path

/-- The row lies in the subtree that is walked past. -/
def Covered (inside : Option String) (path : String) : Prop :=
  ∃ subtree ∈ inside, subtree.toList <+: path.toList

variable {stem path : String}

theorem visit_of_covered {all : Bool} {now : Int} {pageLimit : Nat} {scan : Scan}
    {set : VersionSet} (h : Covered scan.inside set.path) :
    visit stem all now pageLimit scan set = (scan, false) := by
  obtain ⟨subtree, hinside, hcovered⟩ := h
  unfold visit
  rw [if_pos]
  rw [Option.mem_def.mp hinside]
  simpa using hcovered

/-- Outside the subtree walked past, a turn moves the position and adds what the row
shows. -/
theorem visit_of_not_covered {all : Bool} {now : Int} {pageLimit : Nat} {scan : Scan}
    {set : VersionSet} (h : ¬Covered scan.inside set.path) :
    visit stem all now pageLimit scan set =
      match shownBy stem all now set with
      | none => ({ scan with inside := none, startAfter := some set.path }, false)
      | some entry =>
        ({ entries := scan.entries ++ [entry]
           inside := subtreeOf stem set.path
           startAfter := some (seekKey stem set.path) },
          decide (pageLimit ≤ (scan.entries ++ [entry]).length)) := by
  have hinside : ¬(scan.inside.any fun subtree =>
      subtree.toList.isPrefixOf set.path.toList) = true := by
    intro hany
    apply h
    rw [Option.any_eq_true] at hany
    obtain ⟨subtree, hmem, hcovered⟩ := hany
    exact ⟨subtree, hmem, by simpa using hcovered⟩
  unfold visit
  rw [if_neg hinside]
  unfold shownBy subtreeOf seekKey childOf
  split
  · rfl
  · cases hstrip : stripStem stem set.path with
    | none => rfl
    | some rest =>
      dsimp only [Option.bind_some]
      cases hsplit : splitOnce '/' rest with
      | some parts => rfl
      | none =>
        cases UnifiedTree.resolveSet set .newest now with
        | none => rfl
        | some row => rfl

theorem stripStem_eq_some_iff {rest : List Char} :
    stripStem stem path = some rest ↔ path.toList = stem.toList ++ rest := by
  unfold stripStem
  constructor
  · intro h
    split at h
    · rename_i hstem
      rw [← Option.some.inj h]
      exact List.prefix_iff_eq_append.mp hstem |>.symm
    · cases h
  · intro h
    rw [if_pos (h ▸ List.prefix_append _ _), h, List.drop_left]

theorem childOf_eq_some_iff {child : String} :
    childOf stem path = some child ↔
      '/' ∉ child.toList ∧ (stem ++ child ++ "/").toList <+: path.toList := by
  simp only [childOf, Option.bind_eq_some_iff, Option.map_eq_some_iff, Prod.exists,
    stripStem_eq_some_iff, splitOnce_eq_some_iff]
  constructor
  · rintro ⟨rest, hpath, name, below, ⟨rfl, hname⟩, rfl⟩
    refine ⟨by simpa using hname, below, ?_⟩
    simp [hpath]
  · rintro ⟨hchild, below, hbelow⟩
    refine ⟨child.toList ++ '/' :: below, ?_, child.toList, below, ⟨rfl, hchild⟩, by simp⟩
    simp [← hbelow]

theorem childOf_eq_none_iff {name : List Char} (hpath : path.toList = stem.toList ++ name) :
    childOf stem path = none ↔ '/' ∉ name := by
  simp only [childOf, stripStem_eq_some_iff.mpr hpath, Option.bind_some, Option.map_eq_none_iff,
    splitOnce_eq_none_iff]

/-! ## The children of a directory -/

section Children

variable (tree : UnifiedTree) (stem : String) (all : Bool)

/-- The entries a directory has: one for each live path of its own that resolves, and
one for each child with a live path below it. -/
inductive IsChild : EntryJson → Prop
  | file {name : String} {row : EntryRow}
      (hname : '/' ∉ name.toList)
      (hlive : (tree.versions (stem ++ name)).exists? = true)
      (hrow : UnifiedTree.resolveSet (tree.versions (stem ++ name)) .newest tree.now = some row) :
      IsChild (rowEntry all name (tree.versions (stem ++ name)) row)
  | dir {child below : String}
      (hchild : '/' ∉ child.toList)
      (hlive : (tree.versions (stem ++ child ++ "/" ++ below)).exists? = true) :
      IsChild (dirEntry stem child)

/-- Every entry of the directory exactly once, and no other. -/
def Complete (entries : List EntryJson) : Prop :=
  entries.Nodup ∧ ∀ entry, entry ∈ entries ↔ IsChild tree stem all entry

/-- What the row at a path shows. -/
def shows (path : String) : Option EntryJson :=
  shownBy stem all tree.now (tree.versions path)

variable {tree stem all}

variable {path : String}

theorem visit_versions_of_not_covered {pageLimit : Nat} {scan : Scan}
    (h : ¬Covered scan.inside path) :
    visit stem all tree.now pageLimit scan (tree.versions path) =
      match shows tree stem all path with
      | none => ({ scan with inside := none, startAfter := some path }, false)
      | some entry =>
        ({ entries := scan.entries ++ [entry]
           inside := subtreeOf stem path
           startAfter := some (seekKey stem path) },
          decide (pageLimit ≤ (scan.entries ++ [entry]).length)) :=
  visit_of_not_covered h

theorem shows_of_childOf {child : String} (h : childOf stem path = some child) :
    shows tree stem all path =
      if (tree.versions path).exists? then some (dirEntry stem child) else none := by
  simp only [childOf, Option.bind_eq_some_iff, Option.map_eq_some_iff, Prod.exists] at h
  obtain ⟨rest, hstrip, name, below, hsplit, rfl⟩ := h
  unfold shows shownBy
  rw [UnifiedTree.versions_path, hstrip]
  dsimp only
  rw [hsplit]
  cases (tree.versions path).exists? <;> rfl

/-- A path of the directory itself shows its own entry. -/
theorem shows_of_name {name : List Char} (hpath : path.toList = stem.toList ++ name)
    (hname : '/' ∉ name) :
    shows tree stem all path =
      if (tree.versions path).exists? then
        (UnifiedTree.resolveSet (tree.versions path) .newest tree.now).map
          (rowEntry all (String.ofList name) (tree.versions path))
      else none := by
  unfold shows shownBy
  rw [UnifiedTree.versions_path, stripStem_eq_some_iff.mpr hpath]
  dsimp only
  rw [splitOnce_eq_none_iff.mpr hname]
  cases (tree.versions path).exists? <;> rfl

theorem shows_cases {entry : EntryJson} (hstem : stem.toList <+: path.toList)
    (h : shows tree stem all path = some entry) :
    (∃ child, childOf stem path = some child ∧ entry = dirEntry stem child) ∨
      childOf stem path = none ∧ entry.path = path ∧ entry.origin ≠ "" := by
  cases hchild : childOf stem path with
  | some child =>
    rw [shows_of_childOf hchild, Option.ite_none_right_eq_some] at h
    exact .inl ⟨child, rfl, (Option.some.inj h.2).symm⟩
  | none =>
    obtain ⟨name, hname⟩ := hstem
    have hslash := (childOf_eq_none_iff hname.symm).mp hchild
    rw [shows_of_name hname.symm hslash, Option.ite_none_right_eq_some, Option.map_eq_some_iff] at h
    obtain ⟨-, row, hrow, rfl⟩ := h
    exact .inr ⟨rfl, rfl, tree.origin_ne row (UnifiedTree.mem_of_resolveSet hrow).1⟩

theorem exists_of_shows {entry : EntryJson} (h : shows tree stem all path = some entry) :
    (tree.versions path).exists? = true := by
  unfold shows shownBy at h
  by_contra hnot
  simp [hnot] at h

/-- The rows under the directory show its children. -/
theorem isChild_iff_shows (entry : EntryJson) :
    IsChild tree stem all entry ↔
      ∃ path ∈ tree.pathsUnder stem, shows tree stem all path = some entry := by
  constructor
  · rintro (⟨hname, hlive, hrow⟩ | ⟨hchild, hlive⟩)
    · rename_i name row
      refine ⟨stem ++ name, ?_, ?_⟩
      · exact UnifiedTree.mem_unifiedPaths.mpr
          ⟨UnifiedTree.exists_entry_of_exists hlive, by simp, by simp⟩
      · rw [shows_of_name (String.toList_append) hname, if_pos hlive, hrow]
        simp
    · rename_i child below
      refine ⟨stem ++ child ++ "/" ++ below, ?_, ?_⟩
      · exact UnifiedTree.mem_unifiedPaths.mpr
          ⟨UnifiedTree.exists_entry_of_exists hlive, by simp, by simp⟩
      · have hbelow : childOf stem (stem ++ child ++ "/" ++ below) = some child :=
          childOf_eq_some_iff.mpr ⟨hchild, by simp⟩
        rw [shows_of_childOf hbelow, if_pos hlive]
  · rintro ⟨path, hpath, hshows⟩
    have hlive := exists_of_shows hshows
    obtain ⟨-, hstem, -⟩ := UnifiedTree.mem_unifiedPaths.mp hpath
    cases hchild : childOf stem path with
    | some child =>
      rw [shows_of_childOf hchild, if_pos hlive] at hshows
      obtain ⟨hslash, below, hbelow⟩ := childOf_eq_some_iff.mp hchild
      obtain rfl : path = stem ++ child ++ "/" ++ String.ofList below := by
        apply String.toList_injective
        rw [← hbelow]
        simp
      rw [← Option.some.inj hshows]
      exact .dir hslash hlive
    | none =>
      obtain ⟨name, hname⟩ := hstem
      have hslash := (childOf_eq_none_iff hname.symm).mp hchild
      rw [shows_of_name hname.symm hslash, if_pos hlive, Option.map_eq_some_iff] at hshows
      obtain ⟨row, hrow, rfl⟩ := hshows
      obtain rfl : path = stem ++ String.ofList name := by
        apply String.toList_injective
        rw [← hname]
        simp
      exact .file (by simpa using hslash) hlive hrow

end Children

end Synch.Cloud
