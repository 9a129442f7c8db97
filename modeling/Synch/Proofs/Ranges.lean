import Mathlib.Data.List.Sort

/-!
# Sets of chunk groups

Requests name chunk groups by sorted, disjoint, nonempty ranges.  The set
operations of the source are linear merges over the range lists; here they are
shown to be the operations on the groups covered.
-/

namespace Synch.Proofs

open List

structure GroupRange where
  start : Nat
  stop : Nat
deriving DecidableEq, Repr

namespace GroupRange

/-- Build a range, normalizing an inverted one to empty. -/
def new (start stop : Nat) : GroupRange where
  start := start
  stop := max stop start

def isEmpty (r : GroupRange) : Bool :=
  decide (r.stop ≤ r.start)

/-- The order ranges are sorted by. -/
def Before (a b : GroupRange) : Prop :=
  a.start < b.start ∨ a.start = b.start ∧ a.stop ≤ b.stop

instance : DecidableRel Before := fun _ _ => inferInstanceAs (Decidable (_ ∨ _))

instance : Std.Total Before where
  total a b := by
    unfold Before
    omega

instance : IsTrans GroupRange Before where
  trans a b c hab hbc := by
    unfold Before at *
    omega

instance : Membership Nat GroupRange where
  mem r g := r.start ≤ g ∧ g < r.stop

end GroupRange

/-- A set of chunk groups as sorted, non-overlapping ranges. -/
structure ChunkRanges where
  ranges : List GroupRange
  nonempty : ∀ r ∈ ranges, r.start < r.stop
  apart : ranges.Pairwise fun a b => a.stop ≤ b.start

/-- Add a range to merged ones, which are kept with the last one first. -/
def pushRange : List GroupRange → GroupRange → List GroupRange
  | [], r => [r]
  | last :: rest, r =>
    if r.start ≤ last.stop then
      { last with stop := max last.stop r.stop } :: rest
    else
      r :: last :: rest

def mergeRanges (ranges : List GroupRange) : List GroupRange :=
  (((ranges.filter fun r => !r.isEmpty).insertionSort GroupRange.Before).foldl pushRange []).reverse

/-- Sorted, nonempty ranges of which no two touch. -/
def Normalized (ranges : List GroupRange) : Prop :=
  (∀ r ∈ ranges, r.start < r.stop) ∧ ranges.Pairwise fun a b => a.stop < b.start

/-! ## Merging -/

variable {out ranges as : List GroupRange} {r a : GroupRange} {g : Nat}

theorem pushRange_nonempty (hout : ∀ a ∈ out, a.start < a.stop) (hr : r.start < r.stop) :
    ∀ a ∈ pushRange out r, a.start < a.stop := by
  cases out with
  | nil => simpa [pushRange] using hr
  | cons last rest =>
    have hlast := hout last (by simp)
    intro a ha
    rw [pushRange] at ha
    split at ha
    · rcases mem_cons.mp ha with rfl | hrest
      · dsimp only
        omega
      · exact hout a (by simp [hrest])
    · rcases mem_cons.mp ha with rfl | hrest
      · exact hr
      · exact hout a hrest

theorem pushRange_apart (hout : ∀ a ∈ out, a.start < a.stop)
    (hapart : out.Pairwise fun b a => a.stop < b.start) :
    (pushRange out r).Pairwise fun b a => a.stop < b.start := by
  cases out with
  | nil => simp [pushRange]
  | cons last rest =>
    have hlast := hout last (by simp)
    obtain ⟨hbefore, hrest⟩ := pairwise_cons.mp hapart
    rw [pushRange]
    split
    · exact pairwise_cons.mpr ⟨hbefore, hrest⟩
    · rename_i hgap
      refine pairwise_cons.mpr ⟨?_, hapart⟩
      intro a ha
      rcases mem_cons.mp ha with rfl | hmem
      · omega
      · have hlt := hbefore a hmem
        omega

theorem foldl_pushRange_normal (hranges : ∀ r ∈ ranges, r.start < r.stop)
    (hout : ∀ a ∈ out, a.start < a.stop) (hapart : out.Pairwise fun b a => a.stop < b.start) :
    (∀ a ∈ ranges.foldl pushRange out, a.start < a.stop) ∧
      (ranges.foldl pushRange out).Pairwise fun b a => a.stop < b.start := by
  induction ranges generalizing out with
  | nil => exact ⟨hout, hapart⟩
  | cons r ranges ih =>
    have hr := hranges r (by simp)
    apply ih
    · intro a ha
      exact hranges a (by simp [ha])
    · exact pushRange_nonempty hout hr
    · exact pushRange_apart hout hapart

theorem sorted_nonempty
    (hr : r ∈ (ranges.filter fun r => !r.isEmpty).insertionSort GroupRange.Before) :
    r ∈ ranges ∧ r.start < r.stop := by
  have hmem := (mem_insertionSort _).mp hr
  obtain ⟨hranges, hfull⟩ := mem_filter.mp hmem
  exact ⟨hranges, by simpa [GroupRange.isEmpty] using hfull⟩

theorem normalized_mergeRanges (ranges : List GroupRange) : Normalized (mergeRanges ranges) := by
  obtain ⟨hnonempty, hapart⟩ := foldl_pushRange_normal
    (fun r (hr : r ∈ (ranges.filter _).insertionSort GroupRange.Before) => (sorted_nonempty hr).2)
    (forall_mem_nil _) .nil
  exact ⟨fun r hr => hnonempty r (mem_reverse.mp hr), pairwise_reverse.mpr hapart⟩

namespace ChunkRanges

def empty : ChunkRanges where
  ranges := []
  nonempty := by simp
  apart := .nil

/-- A normalized set from arbitrary ranges. -/
def fromRanges (ranges : List GroupRange) : ChunkRanges where
  ranges := mergeRanges ranges
  nonempty := (normalized_mergeRanges ranges).1
  apart := (normalized_mergeRanges ranges).2.imp Nat.le_of_lt

/-- A set covering a single range. -/
def single (start stop : Nat) : ChunkRanges :=
  if h : start < (GroupRange.new start stop).stop then
    { ranges := [GroupRange.new start stop]
      nonempty := by simpa [GroupRange.new] using h
      apart := List.pairwise_singleton _ _ }
  else
    empty

def isEmpty (set : ChunkRanges) : Bool :=
  set.ranges.all GroupRange.isEmpty

/-- Whether any part of `[start, stop)` is covered.  The ranges that end by
`start` come first, so the first other one decides. -/
def overlaps (set : ChunkRanges) (start stop : Nat) : Bool :=
  if stop ≤ start then
    false
  else
    (set.ranges.dropWhile fun r => decide (r.stop ≤ start)).head?.any
      fun r => decide (r.start < stop)

end ChunkRanges

/-- The overlap of two ranges, if there is one. -/
def overlapRange (a b : GroupRange) : List GroupRange :=
  if max a.start b.start < min a.stop b.stop then
    [⟨max a.start b.start, min a.stop b.stop⟩]
  else
    []

/-- The overlaps of two range lists, retiring whichever range ends first. -/
def intersectRanges : List GroupRange → List GroupRange → List GroupRange
  | [], _ => []
  | _ :: _, [] => []
  | a :: as, b :: bs =>
    overlapRange a b ++
      if a.stop ≤ b.stop then intersectRanges as (b :: bs)
      else intersectRanges (a :: as) bs
termination_by as bs => as.length + bs.length

def ChunkRanges.intersect (set other : ChunkRanges) : ChunkRanges :=
  .fromRanges (intersectRanges set.ranges other.ranges)

/-! ## The groups covered -/

def Covered (ranges : List GroupRange) (g : Nat) : Prop :=
  ∃ r ∈ ranges, g ∈ r

theorem covered_cons : Covered (r :: ranges) g ↔ g ∈ r ∨ Covered ranges g := by
  simp [Covered]

theorem mem_groupRange : g ∈ r ↔ r.start ≤ g ∧ g < r.stop :=
  Iff.rfl

theorem covered_pushRange (hsorted : ∀ a ∈ out.head?, a.start ≤ r.start) (g : Nat) :
    Covered (pushRange out r) g ↔ Covered out g ∨ g ∈ r := by
  cases out with
  | nil => simp [pushRange, Covered]
  | cons last rest =>
    have hle : last.start ≤ r.start := hsorted last (by simp)
    rw [pushRange]
    split
    · rename_i htouch
      rw [covered_cons, covered_cons, mem_groupRange, mem_groupRange, mem_groupRange]
      dsimp only
      rw [lt_sup_iff]
      constructor
      · rintro (⟨hstart, hlast | hnew⟩ | hrest)
        · exact .inl (.inl ⟨hstart, hlast⟩)
        · by_cases hg : g < last.stop
          · exact .inl (.inl ⟨hstart, hg⟩)
          · exact .inr ⟨by omega, hnew⟩
        · exact .inl (.inr hrest)
      · rintro ((⟨hstart, hlast⟩ | hrest) | ⟨hstart, hnew⟩)
        · exact .inl ⟨hstart, .inl hlast⟩
        · exact .inr hrest
        · exact .inl ⟨by omega, .inr hnew⟩
    · rw [covered_cons, or_comm]

theorem pushRange_head_start {next : GroupRange} (hsorted : ∀ a ∈ out.head?, a.start ≤ r.start)
    (hnext : r.start ≤ next.start) : ∀ a ∈ (pushRange out r).head?, a.start ≤ next.start := by
  cases out with
  | nil => simpa [pushRange] using hnext
  | cons last rest =>
    have hle : last.start ≤ r.start := hsorted last (by simp)
    rw [pushRange]
    split
    · simpa using hle.trans hnext
    · simpa using hnext

theorem covered_foldl_pushRange (hsorted : ranges.Pairwise GroupRange.Before)
    (hout : ∀ r ∈ ranges, ∀ a ∈ out.head?, a.start ≤ r.start) (g : Nat) :
    Covered (ranges.foldl pushRange out) g ↔ Covered out g ∨ Covered ranges g := by
  induction ranges generalizing out with
  | nil => simp [Covered]
  | cons r ranges ih =>
    obtain ⟨hbefore, hrest⟩ := pairwise_cons.mp hsorted
    have hhead := hout r (by simp)
    have hlater : ∀ next ∈ ranges, r.start ≤ next.start := by
      intro next hnext
      rcases hbefore next hnext with hlt | ⟨heq, -⟩
      · exact hlt.le
      · exact heq.le
    rw [foldl_cons, ih hrest
      (fun next hnext => pushRange_head_start hhead (hlater next hnext)),
      covered_pushRange hhead, covered_cons, or_assoc]

theorem covered_mergeRanges (ranges : List GroupRange) (g : Nat) :
    Covered (mergeRanges ranges) g ↔ Covered ranges g := by
  have hsorted := pairwise_insertionSort GroupRange.Before (ranges.filter fun r => !r.isEmpty)
  have hcovered := covered_foldl_pushRange hsorted
    (fun r _ a (ha : a ∈ ([] : List GroupRange).head?) => by simp at ha) g
  have hfold : Covered (mergeRanges ranges) g ↔ Covered (((ranges.filter
      fun r => !r.isEmpty).insertionSort GroupRange.Before).foldl pushRange []) g := by
    simp [Covered, mergeRanges]
  rw [hfold, hcovered]
  constructor
  · rintro (⟨r, hr, -⟩ | ⟨r, hr, hg⟩)
    · cases hr
    · exact ⟨r, (sorted_nonempty hr).1, hg⟩
  · rintro ⟨r, hr, hg⟩
    refine .inr ⟨r, (mem_insertionSort _).mpr (mem_filter.mpr ⟨hr, ?_⟩), hg⟩
    have hfull : r.start < r.stop := lt_of_le_of_lt hg.1 hg.2
    simpa [GroupRange.isEmpty] using hfull

theorem covered_append {bs : List GroupRange} :
    Covered (as ++ bs) g ↔ Covered as g ∨ Covered bs g := by
  simp [Covered, or_and_right, exists_or]

theorem covered_overlapRange {b : GroupRange} : Covered (overlapRange a b) g ↔ g ∈ a ∧ g ∈ b := by
  simp only [overlapRange, mem_groupRange]
  split
  · simp only [Covered, mem_singleton, exists_eq_left, mem_groupRange]
    omega
  · constructor
    · rintro ⟨r, hr, -⟩
      cases hr
    · omega

theorem not_covered_of_lt (hapart : ∀ b ∈ as, a.stop ≤ b.start) (hg : g < a.stop) :
    ¬Covered as g := by
  rintro ⟨b, hb, hstart, -⟩
  have hle := hapart b hb
  omega

theorem not_mem_of_stop_le (hg : a.stop ≤ g) : ¬g ∈ a := by
  rintro ⟨-, hlt⟩
  omega

/-- The merge of two sorted lists covers what both cover. -/
theorem covered_intersectRanges {bs : List GroupRange}
    (has : as.Pairwise fun a b => a.stop ≤ b.start) (hbs : bs.Pairwise fun a b => a.stop ≤ b.start)
    (g : Nat) : Covered (intersectRanges as bs) g ↔ Covered as g ∧ Covered bs g := by
  induction as, bs using intersectRanges.induct with
  | case1 bs => simp [intersectRanges, Covered]
  | case2 a as => simp [intersectRanges, Covered]
  | case3 a as b bs ihLeft ihRight =>
    obtain ⟨hapart, harest⟩ := pairwise_cons.mp has
    obtain ⟨hbpart, hbrest⟩ := pairwise_cons.mp hbs
    rw [intersectRanges, covered_append, covered_overlapRange]
    -- Nothing later can meet the range that ends first.
    split
    · rename_i hstop
      rw [ihLeft harest hbs, covered_cons, covered_cons]
      by_cases hg : g < a.stop
      · have hlater := not_covered_of_lt hapart hg
        have hlater' := not_covered_of_lt hbpart (lt_of_lt_of_le hg hstop)
        simp [hlater, hlater']
      · simp [not_mem_of_stop_le (not_lt.mp hg)]
    · rename_i hstop
      rw [ihRight has hbrest, covered_cons, covered_cons]
      by_cases hg : g < b.stop
      · have hlater := not_covered_of_lt hapart (hg.trans (not_le.mp hstop))
        have hlater' := not_covered_of_lt hbpart hg
        simp [hlater, hlater']
      · simp [not_mem_of_stop_le (not_lt.mp hg)]

/-- The first range that ends past `start` decides whether one meets
`[start, stop)`. -/
theorem head_dropWhile_iff {start stop : Nat} (hnonempty : ∀ r ∈ ranges, r.start < r.stop)
    (hapart : ranges.Pairwise fun a b => a.stop ≤ b.start) :
    ((ranges.dropWhile fun r => decide (r.stop ≤ start)).head?.any
        (fun r => decide (r.start < stop)) = true ∧ start < stop) ↔
      ∃ g, start ≤ g ∧ g < stop ∧ Covered ranges g := by
  induction ranges with
  | nil => simp [Covered]
  | cons r ranges ih =>
    obtain ⟨hlater, hrest⟩ := pairwise_cons.mp hapart
    have hr := hnonempty r (by simp)
    by_cases hdrop : r.stop ≤ start
    · rw [dropWhile_cons_of_pos (by simpa using hdrop),
        ih (fun a ha => hnonempty a (by simp [ha])) hrest]
      refine exists_congr fun g => and_congr_right fun hg => ?_
      rw [covered_cons]
      simp [not_mem_of_stop_le (hdrop.trans hg)]
    · rw [dropWhile_cons_of_neg (by simpa using hdrop)]
      simp only [head?_cons, Option.any_some, decide_eq_true_eq]
      constructor
      · rintro ⟨hstart, hstop⟩
        refine ⟨max start r.start, le_max_left _ _, by omega, ?_⟩
        exact covered_cons.mpr (.inl ⟨le_max_right _ _, by omega⟩)
      · rintro ⟨g, hstart, hstop, hcovered⟩
        rcases covered_cons.mp hcovered with hhere | ⟨b, hb, hg⟩
        · exact ⟨lt_of_le_of_lt hhere.1 hstop, lt_of_le_of_lt hstart hstop⟩
        · have hle := hlater b hb
          have hbstart := hg.1
          omega

namespace ChunkRanges

instance : Membership Nat ChunkRanges where
  mem set g := Covered set.ranges g

theorem mem_intersect {set other : ChunkRanges} {g : Nat} :
    g ∈ set.intersect other ↔ g ∈ set ∧ g ∈ other :=
  (covered_mergeRanges _ g).trans (covered_intersectRanges set.apart other.apart g)

theorem mem_single {start stop g : Nat} : g ∈ single start stop ↔ start ≤ g ∧ g < stop := by
  unfold single
  split
  · change Covered [GroupRange.new start stop] g ↔ _
    rw [covered_cons, mem_groupRange]
    simp only [GroupRange.new, Covered, not_mem_nil, false_and, exists_false, or_false]
    omega
  · rename_i hempty
    change Covered [] g ↔ _
    simp only [GroupRange.new, Covered, not_mem_nil, false_and, exists_false, false_iff] at hempty ⊢
    omega

theorem isEmpty_iff {set : ChunkRanges} : set.isEmpty = true ↔ ∀ g, g ∉ set := by
  constructor
  · rintro hempty g ⟨r, hr, hg⟩
    have hnone := all_eq_true.mp hempty r hr
    have hstop : r.stop ≤ r.start := by simpa [GroupRange.isEmpty] using hnone
    exact absurd (hg.1.trans_lt hg.2) (not_lt.mpr hstop)
  · intro hnone
    refine all_eq_true.mpr fun r hr => ?_
    exact absurd ⟨r, hr, le_rfl, set.nonempty r hr⟩ (hnone r.start)

/-- The binary search decides whether a covered group lies in the range asked. -/
theorem overlaps_iff {set : ChunkRanges} {start stop : Nat} :
    set.overlaps start stop = true ↔ ∃ g, start ≤ g ∧ g < stop ∧ g ∈ set := by
  refine Iff.trans ?_ (head_dropWhile_iff set.nonempty set.apart)
  unfold overlaps
  split
  · simp only [Bool.false_eq_true, false_iff]
    omega
  · simp only [and_iff_left (not_le.mp ‹_›)]

end ChunkRanges

end Synch.Proofs
