import Synch.Cloud.Collapse

/-!
# Which directories are listed completely

The position left behind by a subdirectory is the successor of its subtree, and
reading on from it leaves out a path that stands exactly there.  Such a path is a
sibling named like the subdirectory with `0` appended.  A directory is listed
completely, whatever the page limit and the batch size, exactly if it has no such
sibling.
-/

namespace Synch.Cloud

open List Synch.Support Synch.Tree

/-! ## Subtrees and their successors -/

theorem slash_covBy : '/' ⋖ '0' := by
  refine ⟨by decide, fun c hlow hhigh => ?_⟩
  rw [char_lt_iff] at hlow hhigh
  have hslash : ('/' : Char).toNat = 47 := rfl
  have hzero : ('0' : Char).toNat = 48 := rfl
  omega

/-- The paths of a subtree are those between it and its successor. -/
theorem subtree_iff (full path : String) :
    (full ++ "/").toList <+: path.toList ↔ full ++ "/" ≤ path ∧ path < full ++ "0" := by
  rw [String.le_iff_toList_le, String.lt_iff_toList_lt, String.toList_append, String.toList_append]
  exact ( between_covBy_iff_prefix slash_covBy).symm

section Seek

variable {tree : UnifiedTree} {stem : String} {all : Bool}

variable {path child other : String}

theorem subtree_of_childOf (h : childOf stem path = some child) :
    stem ++ child ++ "/" ≤ path ∧ path < stem ++ child ++ "0" :=
  (subtree_iff _ _).mp (childOf_eq_some_iff.mp h).2

/-- The successor of a subtree is a path of the directory itself. -/
theorem childOf_successor (h : childOf stem path = some child) :
    childOf stem (stem ++ child ++ "0") = none := by
  have hpath : (stem ++ child ++ "0").toList = stem.toList ++ (child.toList ++ ['0']) := by
    simp
  rw [childOf_eq_none_iff hpath]
  simpa using (childOf_eq_some_iff.mp h).1

theorem le_seekKey (path : String) : path ≤ seekKey stem path := by
  unfold seekKey
  split
  · rename_i child hchild
    exact (subtree_of_childOf hchild).2.le
  · exact le_rfl

theorem le_seekKey_of_covered (h : Covered (subtreeOf stem path) other) :
    other ≤ seekKey stem path := by
  obtain ⟨subtree, hsubtree, hcovered⟩ := h
  simp only [subtreeOf, Option.mem_def, Option.map_eq_some_iff] at hsubtree
  obtain ⟨child, hchild, rfl⟩ := hsubtree
  simp only [seekKey, hchild]
  exact ((subtree_iff _ _).mp hcovered).2.le

/-- A later row lies in the subtree, past its successor, or at it. -/
theorem past_seekKey_or (stem : String) (hlt : path < other) :
    seekKey stem path < other ∨ Covered (subtreeOf stem path) other ∨
      other = seekKey stem path ∧ childOf stem path ≠ none := by
  cases hchild : childOf stem path with
  | none =>
    simp only [seekKey, hchild]
    exact .inl hlt
  | some child =>
    simp only [seekKey, subtreeOf, hchild, Option.map_some]
    obtain hpast | heq | hbefore := lt_trichotomy (stem ++ child ++ "0") other
    · exact .inl hpast
    · exact .inr (.inr ⟨heq.symm, by simp⟩)
    · have hcovered : (stem ++ child ++ "/").toList <+: other.toList :=
        (subtree_iff _ _).mpr ⟨(subtree_of_childOf hchild).1.trans hlt.le, hbefore⟩
      exact .inr (.inl ⟨_, rfl, hcovered⟩)

theorem childOf_of_covered (hchild : childOf stem path = some child)
    (h : Covered (subtreeOf stem path) other) : childOf stem other = some child := by
  obtain ⟨subtree, hsubtree, hcovered⟩ := h
  simp only [subtreeOf, hchild, Option.map_some, Option.mem_def, Option.some.injEq] at hsubtree
  subst hsubtree
  exact childOf_eq_some_iff.mpr ⟨(childOf_eq_some_iff.mp hchild).1, hcovered⟩

end Seek

section Shadowed

variable (tree : UnifiedTree) (stem : String)

/-- A live path of the directory that resolves and is named like a child directory with
a live path below it, with `0` appended. -/
def Shadowed : Prop :=
  ∃ child below row,
    '/' ∉ child.toList ∧
      (tree.versions (stem ++ child ++ "/" ++ below)).exists? = true ∧
        (tree.versions (stem ++ child ++ "0")).exists? = true ∧
          UnifiedTree.resolveSet (tree.versions (stem ++ child ++ "0")) .newest tree.now = some row

variable {tree} {stem} {all : Bool}

/-- Without such a sibling the successor of a subtree shows nothing. -/
theorem shows_seekKey_eq_none (hfree : ¬Shadowed tree stem) {path : String} {entry : EntryJson}
    (hchild : childOf stem path ≠ none) (hshows : shows tree stem all path = some entry) :
    shows tree stem all (seekKey stem path) = none := by
  obtain ⟨child, hchild⟩ := Option.ne_none_iff_exists'.mp hchild
  simp only [seekKey, hchild]
  have hpath : (stem ++ child ++ "0").toList = stem.toList ++ (child.toList ++ ['0']) := by
    simp
  have hslash := (childOf_eq_none_iff hpath).mp (childOf_successor hchild)
  rw [shows_of_name hpath hslash]
  by_contra hne
  obtain ⟨other, hother⟩ := Option.ne_none_iff_exists'.mp hne
  rw [Option.ite_none_right_eq_some, Option.map_eq_some_iff] at hother
  obtain ⟨hlive, row, hrow, -⟩ := hother
  obtain ⟨hname, below, hbelow⟩ := childOf_eq_some_iff.mp hchild
  apply hfree
  refine ⟨child, String.ofList below, row, hname, ?_, hlive, hrow⟩
  have heq : stem ++ child ++ "/" ++ String.ofList below = path := by
    apply String.toList_injective
    rw [← hbelow]
    simp
  rw [heq]
  exact exists_of_shows hshows

end Shadowed

/-! ## One page -/

section Page

variable {tree : UnifiedTree} {stem : String} {all : Bool} {pageLimit scanBatch : Nat}

/-- The page holds, once each, what the rows up to the position show, and nothing of it
is shown again past the position. -/
structure Held (tree : UnifiedTree) (stem : String) (all : Bool)
    (start : Option String) (scan : Scan) : Prop where
  nodup : scan.entries.Nodup
  mem : ∀ entry, entry ∈ scan.entries ↔ ∃ path ∈ tree.pathsUnder stem,
    Past start path ∧ ¬Past scan.startAfter path ∧ shows tree stem all path = some entry
  apart : ∀ entry ∈ scan.entries, ∀ path ∈ tree.pathsUnder stem,
    Past scan.startAfter path → shows tree stem all path ≠ some entry
  covered : ∀ path, Covered scan.inside path → ¬Past scan.startAfter path
  starts : ∀ path, Past scan.startAfter path → Past start path

/-- The rows not visited yet: all that are past the position, and beside them rows of
the subtree walked past, or a row that shows nothing. -/
structure Ahead (tree : UnifiedTree) (stem : String) (all : Bool)
    (scan : Scan) (rest : List String) : Prop where
  ahead : ∀ path ∈ tree.pathsUnder stem, Past scan.startAfter path → path ∈ rest
  behind : ∀ path ∈ rest, Past scan.startAfter path ∨ Covered scan.inside path ∨
    scan.startAfter = some path ∧ shows tree stem all path = none

variable {path : String} {start : Option String} {scan : Scan}

theorem past_some {position : String} : Past (some position) path ↔ position < path := by
  simp [Past]

/-- What moving the position past a row has to keep: up to the new position the rows
show what the row shows or nothing, and past it none shows the same. -/
structure MovesTo (tree : UnifiedTree) (stem : String) (all : Bool)
    (path position : String) (inside : Option String) : Prop where
  le : path ≤ position
  same : ∀ other ∈ tree.pathsUnder stem, path ≤ other → other ≤ position →
    shows tree stem all other = none ∨ shows tree stem all other = shows tree stem all path
  distinct : ∀ other ∈ tree.pathsUnder stem, position < other →
    ∀ entry, shows tree stem all path = some entry → shows tree stem all other ≠ some entry
  covered : ∀ other, Covered inside other → other ≤ position
  later : ∀ other, path < other → position < other ∨ Covered inside other ∨
    position = other ∧ shows tree stem all other = none

/-- A row that shows nothing is passed alone. -/
theorem movesTo_self (hnone : shows tree stem all path = none) :
    MovesTo tree stem all path path none where
  le := le_rfl
  same other _ hle hge := .inl (le_antisymm hge hle ▸ hnone)
  distinct other _ _ entry hshows := by simp [hnone] at hshows
  covered other h := by simp [Covered] at h
  later other hlt := .inl hlt

/-- A row that shows an entry is passed with its whole subtree. -/
theorem movesTo_seekKey (hfree : ¬Shadowed tree stem) {entry : EntryJson}
    (hmem : path ∈ tree.pathsUnder stem) (hshows : shows tree stem all path = some entry) :
    MovesTo tree stem all path (seekKey stem path) (subtreeOf stem path) where
  le := le_seekKey path
  same := by
    intro other _ hle hge
    obtain rfl | hlt := hle.eq_or_lt
    · exact .inr rfl
    obtain hpast | hcovered | ⟨rfl, hchild⟩ := past_seekKey_or stem hlt
    · exact absurd hpast hge.not_gt
    · cases hchild : childOf stem path with
      | none => simp [Covered, subtreeOf, hchild] at hcovered
      | some child =>
        rw [shows_of_childOf (childOf_of_covered hchild hcovered), hshows]
        rw [shows_of_childOf hchild, Option.ite_none_right_eq_some] at hshows
        rw [← hshows.2]
        cases (tree.versions other).exists? <;> simp
    · exact .inl (shows_seekKey_eq_none hfree hchild hshows)
  distinct := by
    intro other hother hlt entry' hentry' hsame
    have hstem := (UnifiedTree.mem_unifiedPaths.mp hmem).2.1
    have hstem' := (UnifiedTree.mem_unifiedPaths.mp hother).2.1
    have hpast : path < other := (le_seekKey path).trans_lt hlt
    obtain ⟨child, hchild, rfl⟩ | ⟨hchild, hpath, horigin⟩ := shows_cases hstem hentry'
    · obtain ⟨child', hchild', heq⟩ | ⟨-, -, horigin⟩ := shows_cases hstem' hsame
      · obtain rfl : child = child' := congrArg EntryJson.name heq
        simp only [seekKey, hchild] at hlt
        exact absurd (subtree_of_childOf hchild').2 hlt.not_gt
      · exact horigin rfl
    · obtain ⟨child', hchild', rfl⟩ | ⟨-, hpath', -⟩ := shows_cases hstem' hsame
      · exact horigin rfl
      · exact absurd (hpath.symm.trans hpath') hpast.ne
  covered other h := le_seekKey_of_covered h
  later := by
    intro other hlt
    obtain hpast | hcovered | ⟨rfl, hchild⟩ := past_seekKey_or stem hlt
    · exact .inl hpast
    · exact .inr (.inl hcovered)
    · exact .inr (.inr ⟨rfl, shows_seekKey_eq_none hfree hchild hshows⟩)

section Move

variable {start : Option String} {scan : Scan} {path position : String}
  {rest : List String} {inside : Option String}

/-- The scan after a row outside the subtree walked past. -/
def Scan.moved
    (scan : Scan) (shown : Option EntryJson) (position : String) (inside : Option String) :
    Scan where
  entries := scan.entries ++ shown.toList
  startAfter := some position
  inside := inside

variable
  (hrest : ∀ other ∈ rest, path < other)
  (hahead : Ahead tree stem all scan (path :: rest))
  (hcovered : ¬Covered scan.inside path)
  (hmoves : MovesTo tree stem all path position inside)

include hahead hcovered in
/-- The row is past the position, or at it and shows nothing. -/
theorem past_or_at :
    Past scan.startAfter path ∨ scan.startAfter = some path ∧ shows tree stem all path = none := by
  obtain hpast | hin | hat := hahead.behind path mem_cons_self
  · exact .inl hpast
  · exact absurd hin hcovered
  · exact .inr hat

include hahead hcovered in
theorem le_of_not_past {other : String} (h : ¬Past scan.startAfter other) : other ≤ path := by
  simp only [Past, not_forall, not_lt] at h
  obtain ⟨position, hposition, hle⟩ := h
  obtain hpast | ⟨hat, -⟩ := past_or_at hahead hcovered
  · exact hle.trans (hpast position hposition).le
  · rw [hat, Option.mem_some_iff] at hposition
    exact hposition ▸ hle

include hrest hahead in
theorem le_of_past {other : String} (hother : other ∈ tree.pathsUnder stem)
    (hpast : Past scan.startAfter other) : path ≤ other := by
  obtain rfl | hlater := mem_cons.mp (hahead.ahead other hother hpast)
  · exact le_rfl
  · exact (hrest other hlater).le

include hahead hcovered hmoves in
theorem past_of_position_lt {other : String} (hlt : position < other) :
    Past scan.startAfter other := by
  by_contra hnot
  exact absurd ((le_of_not_past hahead hcovered hnot).trans hmoves.le) hlt.not_ge

include hrest hahead hcovered hmoves in
theorem Ahead.moved (shown : Option EntryJson) :
    Ahead tree stem all (scan.moved shown position inside) rest where
  ahead := by
    intro other hother hpast
    have hlt : position < other := past_some.mp hpast
    have hbefore := past_of_position_lt hahead hcovered hmoves hlt
    obtain rfl | hlater := mem_cons.mp (hahead.ahead other hother hbefore)
    · exact absurd hmoves.le hlt.not_ge
    · exact hlater
  behind := by
    intro other hother
    obtain hlt | hin | ⟨rfl, hnone⟩ := hmoves.later other (hrest other hother)
    · exact .inl (past_some.mpr hlt)
    · exact .inr (.inl hin)
    · exact .inr (.inr ⟨rfl, hnone⟩)

include hrest hahead hcovered hmoves in
theorem Held.moved (hmem : path ∈ tree.pathsUnder stem) (hheld : Held tree stem all start scan) :
    Held tree stem all start (scan.moved (shows tree stem all path) position inside) where
  nodup := by
    refine nodup_append'.mpr ⟨hheld.nodup, ?_, ?_⟩
    · cases shows tree stem all path <;> simp
    · intro entry hentry hnew
      have hshows : shows tree stem all path = some entry := by simpa using hnew
      obtain hpast | ⟨-, hnone⟩ := past_or_at hahead hcovered
      · exact hheld.apart entry hentry path hmem hpast hshows
      · simp [hnone] at hshows
  mem := by
    intro entry
    simp only [Scan.moved, mem_append, hheld.mem, Option.mem_toList, past_some, not_lt]
    constructor
    · rintro (⟨other, hother, hstart, hnot, hshows⟩ | hshows)
      · exact ⟨other, hother, hstart, (le_of_not_past hahead hcovered hnot).trans hmoves.le, hshows⟩
      · refine ⟨path, hmem, ?_, hmoves.le, hshows⟩
        obtain hpast | ⟨-, hnone⟩ := past_or_at hahead hcovered
        · exact hheld.starts path hpast
        · simp [hnone] at hshows
    · rintro ⟨other, hother, hstart, hle, hshows⟩
      by_cases hpast : Past scan.startAfter other
      · have hge := le_of_past hrest hahead hother hpast
        obtain hnone | hsame := hmoves.same other hother hge hle
        · simp [hnone] at hshows
        · exact .inr (hsame ▸ hshows)
      · exact .inl ⟨other, hother, hstart, hpast, hshows⟩
  apart := by
    intro entry hentry other hother hpast
    have hlt : position < other := past_some.mp hpast
    obtain hold | hnew := mem_append.mp hentry
    · exact hheld.apart entry hold other hother (past_of_position_lt hahead hcovered hmoves hlt)
    · exact hmoves.distinct other hother hlt entry (by simpa using hnew)
  covered := by
    intro other hin hpast
    exact absurd (hmoves.covered other hin) (past_some.mp hpast).not_ge
  starts := by
    intro other hpast
    exact hheld.starts other (past_of_position_lt hahead hcovered hmoves (past_some.mp hpast))

end Move

/-- A turn at the first row not visited yet keeps what the page holds. -/
theorem Held.visit (hfree : ¬Shadowed tree stem) {scan' : Scan} {rest : List String} {full : Bool}
    (hrest : ∀ other ∈ rest, path < other) (hmem : path ∈ tree.pathsUnder stem)
    (hheld : Held tree stem all start scan) (hahead : Ahead tree stem all scan (path :: rest))
    (hvisit : visit stem all tree.now pageLimit scan (tree.versions path) = (scan', full)) :
    Held tree stem all start scan' ∧ Ahead tree stem all scan' rest ∧
      (full = true → scan'.entries ≠ []) := by
  by_cases hcovered : Covered scan.inside path
  · rw [visit_of_covered hcovered, Prod.mk.injEq] at hvisit
    obtain ⟨rfl, rfl⟩ := hvisit
    refine ⟨hheld, ⟨fun other hother hpast => ?_, fun other hother => ?_⟩, by simp⟩
    · obtain rfl | hlater := mem_cons.mp (hahead.ahead other hother hpast)
      · exact absurd hpast (hheld.covered other hcovered)
      · exact hlater
    · exact hahead.behind other (mem_cons_of_mem _ hother)
  · rw [visit_versions_of_not_covered hcovered] at hvisit
    cases hshows : shows tree stem all path with
    | none =>
      have hmoves := movesTo_self hshows
      have hscan : scan' = scan.moved (shows tree stem all path) path none := by
        simp_all [Scan.moved]
      have hnot : full = false := by simp_all
      subst hscan hnot
      exact ⟨hheld.moved hrest hahead hcovered hmoves hmem,
        Ahead.moved hrest hahead hcovered hmoves _, by simp⟩
    | some entry =>
      have hmoves := movesTo_seekKey hfree hmem hshows
      have hscan : scan' = scan.moved (shows tree stem all path) (seekKey stem path)
          (subtreeOf stem path) := by
        simp_all [Scan.moved]
      subst hscan
      exact ⟨hheld.moved hrest hahead hcovered hmoves hmem,
        Ahead.moved hrest hahead hcovered hmoves _, by simp [Scan.moved, hshows]⟩

/-- A batch of the first rows not visited yet keeps what the page holds. -/
theorem Held.visitAll (hfree : ¬Shadowed tree stem) {scan' : Scan} {batch later : List String}
    {full : Bool} (hsorted : (batch ++ later).Pairwise (· < ·))
    (hmem : ∀ path ∈ batch, path ∈ tree.pathsUnder stem) (hheld : Held tree stem all start scan)
    (hahead : Ahead tree stem all scan (batch ++ later))
    (hvisit : visitAll stem all tree.now pageLimit scan (batch.map tree.versions) = (scan', full)) :
    Held tree stem all start scan' ∧
      (full = false → Ahead tree stem all scan' later) ∧ (full = true → scan'.entries ≠ []) := by
  induction batch generalizing scan with
  | nil =>
    rw [map_nil, Cloud.visitAll, Prod.mk.injEq] at hvisit
    obtain ⟨rfl, rfl⟩ := hvisit
    exact ⟨hheld, fun _ => hahead, by simp⟩
  | cons path batch ih =>
    rw [cons_append, pairwise_cons] at hsorted
    obtain ⟨hpath, hbatch⟩ := forall_mem_cons.mp hmem
    rw [map_cons, Cloud.visitAll] at hvisit
    cases hturn : Cloud.visit stem all tree.now pageLimit scan (tree.versions path) with
    | mk next done =>
      obtain ⟨hheld', hahead', hentries⟩ :=
        hheld.visit hfree hsorted.1 hpath hahead hturn
      rw [hturn] at hvisit
      cases done with
      | true =>
        rw [Prod.mk.injEq] at hvisit
        obtain ⟨rfl, rfl⟩ := hvisit
        exact ⟨hheld', by simp, hentries⟩
      | false => exact ih hsorted.2 hbatch hheld' hahead' hvisit

/-- The rows past the position of a scan. -/
def remaining (tree : UnifiedTree) (stem : String) (scan : Scan) : List String :=
  (tree.pathsUnder stem).filter fun path => Past scan.startAfter path

theorem mem_remaining :
    path ∈ remaining tree stem scan ↔ path ∈ tree.pathsUnder stem ∧ Past scan.startAfter path := by
  simp [remaining]

theorem remaining_pairwise (scan : Scan) : (remaining tree stem scan).Pairwise (· < ·) :=
  (tree.pathsUnder_pairwise stem).filter _

theorem unifiedListing_eq_remaining (scan : Scan) :
    tree.unifiedListing stem scan.startAfter (some scanBatch) =
      ((remaining tree stem scan).take scanBatch).map tree.versions :=
  tree.unifiedListing_some stem scan.startAfter scanBatch

/-- At the start of a batch nothing but the rows past the position is ahead. -/
theorem ahead_remaining (scan : Scan) : Ahead tree stem all scan (remaining tree stem scan) where
  ahead _ hpath hpast := mem_remaining.mpr ⟨hpath, hpast⟩
  behind _ hpath := .inl (mem_remaining.mp hpath).2

theorem length_remaining_le {later : List String} (h : Ahead tree stem all scan later) :
    (remaining tree stem scan).length ≤ later.length := by
  have hnodup : (remaining tree stem scan).Nodup := (remaining_pairwise scan).imp ne_of_lt
  have hsub : remaining tree stem scan ⊆ later := by
    intro path hpath
    obtain ⟨hmem, hpast⟩ := mem_remaining.mp hpath
    exact h.ahead path hmem hpast
  exact (subperm_of_subset hnodup hsub).length_le

/-- With fuel for the rows past the position, the batches of a page end, and the page
holds what it passed. -/
theorem exists_collapseLoop (pageLimit : Nat) (hfree : ¬Shadowed tree stem)
    (hbatch : 0 < scanBatch) {fuel : Nat} (hfuel : (remaining tree stem scan).length < fuel)
    (hheld : Held tree stem all start scan) :
    ∃ scan' more, collapseLoop tree stem all pageLimit scanBatch fuel scan = some (scan', more) ∧
      Held tree stem all start scan' ∧
        (more = true → scan'.entries ≠ []) ∧ (more = false → remaining tree stem scan' = []) := by
  induction fuel generalizing scan with
  | zero => omega
  | succ fuel ih =>
    have hsplit := take_append_drop scanBatch (remaining tree stem scan)
    have hsorted : (remaining tree stem scan).Pairwise (· < ·) := remaining_pairwise scan
    have hahead : Ahead tree stem all scan (remaining tree stem scan) := ahead_remaining scan
    rw [← hsplit] at hsorted hahead
    unfold collapseLoop
    dsimp only
    rw [unifiedListing_eq_remaining]
    cases hturn : visitAll stem all tree.now pageLimit scan
        (((remaining tree stem scan).take scanBatch).map tree.versions) with
    | mk next full =>
      obtain ⟨hheld', hlater, hentries⟩ := hheld.visitAll hfree hsorted
        (fun path hpath => (mem_remaining.mp (mem_of_mem_take hpath)).1) hahead hturn
      cases full with
      | true => exact ⟨next, true, rfl, hheld', hentries, by simp⟩
      | false =>
        have hlength := length_remaining_le (hlater rfl)
        rw [length_drop] at hlength
        dsimp only
        split
        · rename_i hshort
          refine ⟨next, false, rfl, hheld', by simp, fun _ => ?_⟩
          rw [length_map, length_take] at hshort
          exact eq_nil_of_length_eq_zero (by omega)
        · rename_i hshort
          rw [length_map, length_take] at hshort
          exact ih (by omega) hheld'

theorem held_start (start : Option String) :
    Held tree stem all start { entries := [], startAfter := start, inside := none } where
  nodup := nodup_nil
  mem := by
    intro entry
    simp only [not_mem_nil, false_iff, not_exists, not_and]
    intro path _ hpast hnot
    exact absurd hpast hnot
  apart := by simp
  covered := by simp [Covered]
  starts := fun _ h => h

theorem length_pathsUnder_le : (tree.pathsUnder stem).length ≤ tree.entries.length := by
  unfold UnifiedTree.pathsUnder UnifiedTree.unifiedPaths
  rw [(sortBy_perm _ _).length_eq]
  calc _ ≤ _ := (dedup_sublist _).length_le
    _ = _ := length_map _
    _ ≤ _ := length_filter_le _ _

theorem Held.passesRows_of_full (h : Held tree stem all start scan) (hentries : scan.entries ≠ []) :
    PassesRows (tree.pathsUnder stem) (shows tree stem all) start scan.entries scan.startAfter := by
  obtain ⟨entry, hentry⟩ := exists_mem_of_ne_nil _ hentries
  obtain ⟨path, hpath, hpast, hnot, -⟩ := (h.mem entry).mp hentry
  cases hposition : scan.startAfter with
  | none => simp [hposition, Past] at hnot
  | some position =>
    rw [hposition, past_some, not_lt] at hnot
    refine ⟨h.nodup, fun other => ?_, ?_⟩
    · simp only [h.mem other, hposition, past_some, not_lt, Option.mem_some_iff, forall_eq']
    · simpa using ⟨path, hpath, hpast, hnot⟩

theorem Held.passesRows_of_end (h : Held tree stem all start scan)
    (hend : remaining tree stem scan = []) :
    PassesRows (tree.pathsUnder stem) (shows tree stem all) start scan.entries none := by
  refine ⟨h.nodup, fun entry => ?_, by simp⟩
  rw [h.mem entry]
  have hpassed : ∀ path ∈ tree.pathsUnder stem, ¬Past scan.startAfter path := by
    intro path hpath hpast
    have hmem : path ∈ remaining tree stem scan := mem_remaining.mpr ⟨hpath, hpast⟩
    simp [hend] at hmem
  constructor
  · rintro ⟨path, hpath, hpast, -, hshows⟩
    exact ⟨path, hpath, hpast, by simp, hshows⟩
  · rintro ⟨path, hpath, hpast, -, hshows⟩
    exact ⟨path, hpath, hpast, hpassed path hpath, hshows⟩

/-- A page passes the rows up to where the next one resumes. -/
theorem exists_collapse (pageLimit : Nat) (hfree : ¬Shadowed tree stem) (hbatch : 0 < scanBatch)
    (start : Option String) :
    ∃ entries after, collapse tree stem all pageLimit scanBatch start = some (entries, after) ∧
      PassesRows (tree.pathsUnder stem) (shows tree stem all) start entries after ∧
        ∀ position ∈ after,
          Apart (tree.pathsUnder stem) (shows tree stem all) entries position := by
  have hfuel : (remaining tree stem { entries := [], startAfter := start, inside := none }).length
      < tree.entries.length + 1 :=
    Nat.lt_succ_of_le ((length_filter_le _ _).trans length_pathsUnder_le)
  have hstart : Held tree stem all start { entries := [], startAfter := start, inside := none } :=
    held_start start
  obtain ⟨scan, more, hloop, hheld, hentries, hend⟩ :=
    exists_collapseLoop pageLimit hfree hbatch hfuel hstart
  refine ⟨scan.entries, if more then scan.startAfter else none, by simp [collapse, hloop], ?_⟩
  cases more with
  | true =>
    refine ⟨hheld.passesRows_of_full (hentries rfl), ?_⟩
    intro position hposition entry hentry path hpath hlt
    rw [if_pos rfl, Option.mem_def] at hposition
    exact hheld.apart entry hentry path hpath (hposition ▸ past_some.mpr hlt)
  | false => exact ⟨hheld.passesRows_of_end (hend rfl), by simp⟩

end Page

/-! ## Every page -/

/-- Without a sibling at a successor, the pages list the directory completely. -/
theorem exists_pages_complete {tree : UnifiedTree} {stem : String} {all : Bool}
    {pageLimit scanBatch : Nat} (hfree : ¬Shadowed tree stem) (hbatch : 0 < scanBatch) :
    ∃ pages, Pages (collapse tree stem all pageLimit scanBatch) none pages ∧
      Complete tree stem all pages.flatten := by
  have hpage : ∀ start, ∃ entries after,
      collapse tree stem all pageLimit scanBatch start = some (entries, after) ∧
        PassesRows (tree.pathsUnder stem) (shows tree stem all) start entries after := by
    intro start
    obtain ⟨entries, after, hcall, hspec, -⟩ := exists_collapse pageLimit hfree hbatch start
    exact ⟨entries, after, hcall, hspec⟩
  obtain ⟨pages, hpages⟩ := exists_pages hpage none
  refine ⟨pages, hpages, (nodup_flatten_pages_iff hpage hpages).mpr ?_, fun entry => ?_⟩
  · intro reached _ entries position hcall
    obtain ⟨entries', after, hcall', -, hapart⟩ :=
      @exists_collapse tree stem all scanBatch pageLimit hfree hbatch reached
    rw [hcall, Option.some.injEq, Prod.mk.injEq] at hcall'
    obtain ⟨rfl, rfl⟩ := hcall'
    exact hapart position rfl
  · rw [mem_flatten_pages hpage hpages, isChild_iff_shows]
    simp [Past]

section Lost

variable {tree : UnifiedTree} {stem : String} {all : Bool} {pageLimit : Nat}
  {scan : Scan} {path below child : String}

/-- The position is before a live path of a child directory or not before the successor
of its subtree, and no entry in hand is that of a path at the successor. -/
structure Skips (scan : Scan) (below successor : String) : Prop where
  position : Past scan.startAfter below ∨ ¬Past scan.startAfter successor
  covered : ∀ path, Covered scan.inside path → ¬Past scan.startAfter path
  absent : ∀ entry ∈ scan.entries, entry.path = successor → entry.origin = ""

theorem lt_of_not_past_of_past {start : Option String} {successor : String}
    (hnot : ¬Past start successor) (hpast : Past start path) : successor < path := by
  simp only [Past, not_forall, not_lt] at hnot
  obtain ⟨position, hposition, hle⟩ := hnot
  exact hle.trans_lt (hpast position hposition)

/-- A turn at the first row past the position keeps it so. -/
theorem Skips.visit (hchild : childOf stem below = some child)
    (hlive : (tree.versions below).exists? = true)
    (hskips : Skips scan below (stem ++ child ++ "0")) (hmem : path ∈ tree.pathsUnder stem)
    (hpast : Past scan.startAfter path) (hfirst : Past scan.startAfter below → path ≤ below) :
    Skips (visit stem all tree.now pageLimit scan (tree.versions path)).1 below
      (stem ++ child ++ "0") := by
  have hcovered : ¬Covered scan.inside path := fun h => hskips.covered path h hpast
  have hbelow := (subtree_of_childOf hchild).2
  have hcases : path ≤ below ∨ stem ++ child ++ "0" < path := by
    obtain hbefore | hafter := hskips.position
    · exact .inl (hfirst hbefore)
    · exact .inr (lt_of_not_past_of_past hafter hpast)
  have hne : path ≠ stem ++ child ++ "0" := by
    rintro rfl
    obtain hle | hlt := hcases
    · exact absurd hbelow hle.not_gt
    · exact lt_irrefl _ hlt
  rw [visit_versions_of_not_covered hcovered]
  cases hshows : shows tree stem all path with
  | none =>
    refine ⟨?_, by simp [Covered], hskips.absent⟩
    obtain hle | hlt := hcases
    · -- the live path shows its directory, so the row is another one
      have hother : path ≠ below := by
        rintro rfl
        simp [shows_of_childOf hchild, hlive] at hshows
      exact .inl (past_some.mpr (lt_of_le_of_ne hle hother))
    · exact .inr fun h => lt_asymm hlt (past_some.mp h)
  | some entry =>
    refine ⟨?_, ?_, ?_⟩
    · obtain hle | hlt := hcases
      · obtain rfl | hlt := hle.eq_or_lt
        · simp only [seekKey, hchild]
          exact .inr fun h => lt_irrefl _ (past_some.mp h)
        · obtain hseek | hin | ⟨heq, hopens⟩ := past_seekKey_or stem hlt
          · exact .inl (past_some.mpr hseek)
          · cases hopened : childOf stem path with
            | none => simp [Covered, subtreeOf, hopened] at hin
            | some child' =>
              have hsame := childOf_of_covered hopened hin
              rw [hchild, Option.some.injEq] at hsame
              simp only [seekKey, hopened, hsame]
              exact .inr fun h => lt_irrefl _ (past_some.mp h)
          · obtain ⟨child', hopened⟩ := Option.ne_none_iff_exists'.mp hopens
            have hsuccessor := childOf_successor hopened
            simp only [seekKey, hopened] at heq
            rw [← heq, hchild] at hsuccessor
            cases hsuccessor
      · have hle : path ≤ seekKey stem path := le_seekKey path
        exact .inr fun h => lt_asymm (hlt.trans_le hle) (past_some.mp h)
    · intro other hin hlater
      exact absurd (le_seekKey_of_covered hin) (past_some.mp hlater).not_ge
    · intro entry' hentry' hpath'
      obtain hold | hnew := mem_append.mp hentry'
      · exact hskips.absent entry' hold hpath'
      · rw [mem_singleton.mp hnew] at hpath' ⊢
        have hstem := (UnifiedTree.mem_unifiedPaths.mp hmem).2.1
        obtain ⟨child', -, rfl⟩ | ⟨-, hpath, -⟩ := shows_cases hstem hshows
        · rfl
        · exact absurd (hpath.symm.trans hpath') hne

/-- With batches of one row, every page is left so. -/
theorem Skips.collapseLoop (hchild : childOf stem below = some child)
    (hlive : (tree.versions below).exists? = true) (hbelow : below ∈ tree.pathsUnder stem)
    {fuel : Nat} {scan' : Scan} {more : Bool} (hskips : Skips scan below (stem ++ child ++ "0"))
    (hloop : collapseLoop tree stem all pageLimit 1 fuel scan = some (scan', more)) :
    Skips scan' below (stem ++ child ++ "0") := by
  induction fuel generalizing scan with
  | zero => simp [Cloud.collapseLoop] at hloop
  | succ fuel ih =>
    unfold Cloud.collapseLoop at hloop
    rw [unifiedListing_eq_remaining] at hloop
    cases hrest : remaining tree stem scan with
    | nil =>
      simp only [hrest, take_nil, map_nil, Cloud.visitAll, length_nil,
        Nat.lt_one_iff, if_true, Option.some.injEq, Prod.mk.injEq] at hloop
      exact hloop.1 ▸ hskips
    | cons path rest =>
      have hsorted : (path :: rest).Pairwise (· < ·) := hrest ▸ remaining_pairwise scan
      have hmem : path ∈ remaining tree stem scan := hrest ▸ mem_cons_self
      obtain ⟨hpath, hpast⟩ := mem_remaining.mp hmem
      have hfirst : Past scan.startAfter below → path ≤ below := by
        intro hbefore
        have hin : below ∈ path :: rest := hrest ▸ mem_remaining.mpr ⟨hbelow, hbefore⟩
        obtain rfl | hlater := mem_cons.mp hin
        · exact le_rfl
        · exact ((pairwise_cons.mp hsorted).1 below hlater).le
      have hturn := @Skips.visit tree stem all pageLimit scan path below child hchild hlive
        hskips hpath hpast hfirst
      simp only [hrest, take_succ_cons, take_zero, map_cons, map_nil,
        Cloud.visitAll, length_singleton, lt_self_iff_false, if_false] at hloop
      generalize Cloud.visit stem all tree.now pageLimit scan (tree.versions path) = turn
        at hturn hloop
      obtain ⟨next, full⟩ := turn
      cases full with
      | true =>
        simp only [Option.some.injEq, Prod.mk.injEq] at hloop
        exact hloop.1 ▸ hturn
      | false => exact ih hturn hloop

theorem origin_of_pages (hchild : childOf stem below = some child)
    (hlive : (tree.versions below).exists? = true) (hbelow : below ∈ tree.pathsUnder stem)
    {start : Option String} {pages : List (List EntryJson)}
    (hstart : Past start below ∨ ¬Past start (stem ++ child ++ "0"))
    (hpages : Pages (collapse tree stem all pageLimit 1) start pages) :
    ∀ entry ∈ pages.flatten, entry.path = stem ++ child ++ "0" → entry.origin = "" := by
  have hcall : ∀ {start entries after},
      (Past start below ∨ ¬Past start (stem ++ child ++ "0")) →
        collapse tree stem all pageLimit 1 start = some (entries, after) →
          ∃ scan, Skips scan below (stem ++ child ++ "0") ∧ scan.entries = entries ∧
            ∀ position ∈ after, scan.startAfter = some position := by
    intro start entries after hstart hcollapse
    unfold collapse at hcollapse
    rw [Option.map_eq_some_iff] at hcollapse
    obtain ⟨⟨scan, more⟩, hloop, hresult⟩ := hcollapse
    rw [Prod.mk.injEq] at hresult
    have hskips := Skips.collapseLoop hchild hlive hbelow ⟨hstart, by simp [Covered], by simp⟩ hloop
    refine ⟨scan, hskips, hresult.1, fun position hposition => ?_⟩
    rw [← hresult.2] at hposition
    cases more <;> simp_all
  induction hpages with
  | last hcollapse =>
    obtain ⟨scan, hskips, rfl, -⟩ := hcall hstart hcollapse
    simpa using hskips.absent
  | next hcollapse hrest ih =>
    obtain ⟨scan, hskips, rfl, hafter⟩ := hcall hstart hcollapse
    have hposition := hskips.position
    rw [hafter _ rfl] at hposition
    intro entry hentry
    rw [flatten_cons, mem_append] at hentry
    obtain hfirst | hlater := hentry
    · exact hskips.absent entry hfirst
    · exact ih hposition entry hlater

end Lost

/-- A directory is listed completely, whatever the page limit and the batch size, exactly
if no path of it stands at the successor of a child directory's subtree. -/
theorem collapse_complete_iff (tree : UnifiedTree) (stem : String) (all : Bool) :
    (∀ pageLimit scanBatch, 0 < scanBatch →
        ∃ pages, Pages (collapse tree stem all pageLimit scanBatch) none pages ∧
          Complete tree stem all pages.flatten) ↔
      ¬Shadowed tree stem := by
  constructor
  · rintro hall ⟨child, rest, row, hname, hbelow, hsuccessor, hrow⟩
    obtain ⟨pages, hpages, -, hcomplete⟩ := hall 0 1 Nat.one_pos
    have hchild : childOf stem (stem ++ child ++ "/" ++ rest) = some child :=
      childOf_eq_some_iff.mpr ⟨hname, by simp⟩
    have hmem : stem ++ child ++ "/" ++ rest ∈ tree.pathsUnder stem :=
      UnifiedTree.mem_unifiedPaths.mpr ⟨UnifiedTree.exists_entry_of_exists hbelow, by simp, by simp⟩
    rw [String.append_assoc] at hsuccessor hrow
    have hzero : '/' ∉ (child ++ "0").toList := by simpa using hname
    have hlisted := (hcomplete _).mpr (IsChild.file hzero hsuccessor hrow)
    have horigin := origin_of_pages hchild hbelow hmem (.inl (by simp [Past])) hpages _ hlisted
      String.append_assoc.symm
    exact tree.origin_ne row (UnifiedTree.mem_of_resolveSet hrow).1 horigin
  · intro hfree pageLimit scanBatch hbatch
    exact exists_pages_complete hfree hbatch

/-- A directory `a` with the file `x`, and beside it the file `a0`. -/
def shadowingTree : UnifiedTree where
  space := "media"
  entries := [.emptyFile "a/x", .emptyFile "a0"]
  now := 0
  origin_ne := by simp [EntryRow.emptyFile]
  path_ne := by simp [EntryRow.emptyFile]

/-- In pages of one entry the file is never listed: the page that ends on the directory
hands out the path of the file, and the next one reads past it. -/
theorem sibling_at_successor_lost :
    Pages (collapse shadowingTree "" false 1 1) none [[dirEntry "" "a"], []] ∧
      ¬Complete shadowingTree "" false [[dirEntry "" "a"], []].flatten := by
  have hfirst : collapse shadowingTree "" false 1 1 none = some ([dirEntry "" "a"], some "a0") := by
    decide +kernel
  have hsecond : collapse shadowingTree "" false 1 1 (some "a0") = some ([], none) := by
    decide +kernel
  have hchild : IsChild shadowingTree "" false
      (rowEntry false "a0" (shadowingTree.versions ("" ++ "a0")) (.emptyFile "a0")) :=
    .file (by decide) (by decide +kernel) (by decide +kernel)
  refine ⟨.next hfirst (.last hsecond), fun hcomplete => ?_⟩
  have hlisted := (hcomplete.2 _).mpr hchild
  simp [dirEntry, rowEntry] at hlisted

end Synch.Cloud
