import Synch.Proofs.Walk

/-!
# Walks over a complete outboard

A complete outboard holds, at the name of every subtree of more than one group,
the chaining values of its two halves.  A walk that is fed those pairs visits a
fixed trail of nodes, whichever side of the exchange it runs on.
-/

namespace Synch.Proofs

open List

/-- The stored pairs of an object's tree, by node. -/
abbrev Outboard (Node : Type) := Node → Option NodePair

section Complete

variable {Node : Type} (hash : TreeHash) (numbering : Numbering Node)
  (leaf : Nat → Cv)

/-- The pair a subtree's node holds in a tree over given group values. -/
def pairOf (left right : Subtree Node) : NodePair :=
  (left.value hash.join leaf, right.value hash.join leaf)

/-- The outboard holds the tree below a subtree: every subtree of more than one
group has named children, and its node holds their values. -/
inductive CompleteBelow (outboard : Outboard Node) : Subtree Node → Prop
  | group {s : Subtree Node} (hone : s.groups = 1) : CompleteBelow outboard s
  | node {s left right : Subtree Node}
      (hchildren : s.children numbering = some (left, right))
      (hpair : outboard s.node = some (pairOf hash leaf left right))
      (hleft : CompleteBelow outboard left)
      (hright : CompleteBelow outboard right) : CompleteBelow outboard s

/-- The outboard is complete for a blob of `size` bytes with the given group
values, and the blob hashes to `root`. -/
structure Complete
    (outboard : Outboard Node) (size : Nat) (root : Hash) : Prop where
  below : CompleteBelow hash numbering leaf outboard (.rootOf numbering size)
  root_eq : ∀ left right,
    (Subtree.rootOf numbering size).children numbering = some (left, right) →
      hash.joinRoot (left.value hash.join leaf) (right.value hash.join leaf) = root

def holdsBelow (outboard : Outboard Node) (s : Subtree Node) : Bool :=
  s.groups == 1 ||
    match _hchildren : s.children numbering with
    | none => false
    | some (left, right) =>
      outboard s.node == some (pairOf hash leaf left right) &&
        (holdsBelow outboard left && holdsBelow outboard right)
termination_by s.level
decreasing_by
  · exact (Subtree.splits_of_children ‹_›).left_level
  · exact (Subtree.splits_of_children ‹_›).right_level

/-- The nodes a walk visits below a subtree, with the pairs of the tree. -/
def trail (ranges : ChunkRanges) (stops : Subtree Node → Bool) (s : Subtree Node) :
    List (Node × NodePair) :=
  if ranges.overlaps s.start s.stop = true ∧ stops s = false then
    match _hchildren : s.children numbering with
    | none => []
    | some (left, right) =>
      (s.node, pairOf hash leaf left right) :: (trail ranges stops left ++ trail ranges stops right)
  else
    []
termination_by s.level
decreasing_by
  · exact (Subtree.splits_of_children ‹_›).left_level
  · exact (Subtree.splits_of_children ‹_›).right_level

variable {hash numbering leaf}

theorem completeBelow_of_holdsBelow {outboard : Outboard Node} {s : Subtree Node}
    (h : holdsBelow hash numbering leaf outboard s = true) :
    CompleteBelow hash numbering leaf outboard s := by
  rw [holdsBelow, Bool.or_eq_true] at h
  rcases h with hone | hrest
  · exact .group (by simpa using hone)
  · split at hrest
    · cases hrest
    · rename_i left right hchildren
      rw [Bool.and_eq_true, Bool.and_eq_true] at hrest
      obtain ⟨hpair, hleft, hright⟩ := hrest
      exact .node hchildren (by simpa using hpair) (completeBelow_of_holdsBelow hleft)
        (completeBelow_of_holdsBelow hright)
termination_by s.level
decreasing_by
  · exact (Subtree.splits_of_children ‹_›).left_level
  · exact (Subtree.splits_of_children ‹_›).right_level

variable {ranges : ChunkRanges} {stops : Subtree Node → Bool} {s : Subtree Node}

theorem trail_of_not (h : ¬(ranges.overlaps s.start s.stop = true ∧ stops s = false)) :
    trail hash numbering leaf ranges stops s = [] := by
  rw [trail, if_neg h]

theorem trail_of_group (hone : s.groups = 1) : trail hash numbering leaf ranges stops s = [] := by
  rw [trail]
  split
  · split
    · rfl
    · rename_i hsome
      have hmore := (Subtree.splits_of_children hsome).more
      omega
  · rfl

theorem trail_of_children {left right : Subtree Node}
    (hoverlaps : ranges.overlaps s.start s.stop = true) (hstops : stops s = false)
    (hchildren : s.children numbering = some (left, right)) :
    trail hash numbering leaf ranges stops s =
      (s.node, pairOf hash leaf left right) ::
        (trail hash numbering leaf ranges stops left ++
          trail hash numbering leaf ranges stops right) := by
  rw [trail, if_pos ⟨hoverlaps, hstops⟩]
  split
  · rename_i hnone
    rw [hnone] at hchildren
    cases hchildren
  · rename_i hsome
    rw [hsome] at hchildren
    cases hchildren
    rfl

/-- A trail only depends on which groups inside the subtree are covered. -/
theorem trail_congr {ranges' : ChunkRanges} {bound : Nat}
    (hsame : ∀ g, g < bound → (g ∈ ranges ↔ g ∈ ranges')) {outboard : Outboard Node}
    (hcomplete : CompleteBelow hash numbering leaf outboard s) (hbound : s.stop ≤ bound) :
    trail hash numbering leaf ranges stops s = trail hash numbering leaf ranges' stops s := by
  have hoverlaps : ∀ t : Subtree Node, t.stop ≤ bound →
      ranges.overlaps t.start t.stop = ranges'.overlaps t.start t.stop := by
    intro t ht
    rw [Bool.eq_iff_iff, ChunkRanges.overlaps_iff, ChunkRanges.overlaps_iff]
    refine exists_congr fun g => and_congr_right fun _ => and_congr_right fun hg => ?_
    exact hsame g (lt_of_lt_of_le hg ht)
  induction hcomplete with
  | @group s hone => rw [trail_of_group hone, trail_of_group hone]
  | @node s left right hchildren hpair hleft hright ihLeft ihRight =>
    have hsplits := Subtree.splits_of_children hchildren
    by_cases hvisit : ranges.overlaps s.start s.stop = true ∧ stops s = false
    · have hvisit' := hvisit
      rw [hoverlaps s hbound] at hvisit'
      rw [trail_of_children hvisit.1 hvisit.2 hchildren,
        trail_of_children hvisit'.1 hvisit'.2 hchildren,
        ihLeft (hsplits.left_stop_le.trans hbound),
        ihRight (hsplits.right_stop.le.trans hbound)]
    · rw [trail_of_not hvisit, trail_of_not (by rwa [← hoverlaps s hbound])]

theorem CompleteBelow.outboard_of_mem_trail {outboard : Outboard Node}
    (hcomplete : CompleteBelow hash numbering leaf outboard s) {visited : Node × NodePair}
    (hmem : visited ∈ trail hash numbering leaf ranges stops s) :
    outboard visited.1 = some visited.2 := by
  induction hcomplete with
  | @group s hone =>
    rw [trail_of_group hone] at hmem
    cases hmem
  | @node s left right hchildren hpair hleft hright ihLeft ihRight =>
    by_cases hvisit : ranges.overlaps s.start s.stop = true ∧ stops s = false
    · rw [trail_of_children hvisit.1 hvisit.2 hchildren, mem_cons, mem_append] at hmem
      rcases hmem with rfl | hmemLeft | hmemRight
      · exact hpair
      · exact ihLeft hmemLeft
      · exact ihRight hmemRight
    · rw [trail_of_not hvisit] at hmem
      cases hmem

end Complete

section Loads

variable {Node σ : Type}

/-- The loader supplies these pairs one after the other. -/
def Loads (load : Node → σ → Except (ProofError Node) (NodePair × σ)) :
    σ → List (Node × NodePair) → σ → Prop
  | loader, [], last => loader = last
  | loader, (node, pair) :: rest, last =>
    ∃ next, load node loader = .ok (pair, next) ∧ Loads load next rest last

theorem loads_append {load : Node → σ → Except (ProofError Node) (NodePair × σ)} {loader last : σ}
    {pairs pairs' : List (Node × NodePair)} :
    Loads load loader (pairs ++ pairs') last ↔
      ∃ middle, Loads load loader pairs middle ∧ Loads load middle pairs' last := by
  induction pairs generalizing loader with
  | nil => simp [Loads]
  | cons head pairs ih =>
    obtain ⟨node, pair⟩ := head
    simp only [cons_append, Loads, ih]
    constructor
    · rintro ⟨next, hload, middle, hfirst, hsecond⟩
      exact ⟨middle, ⟨next, hload, hfirst⟩, hsecond⟩
    · rintro ⟨middle, ⟨next, hload, hfirst⟩, hsecond⟩
      exact ⟨next, hload, middle, hfirst, hsecond⟩

/-- A loader that can always supply a pair supplies a list of them. -/
theorem exists_loads {load : Node → σ → Except (ProofError Node) (NodePair × σ)}
    {pairs : List (Node × NodePair)} (hsupplies : ∀ visited ∈ pairs, ∀ loader,
      ∃ next, load visited.1 loader = .ok (visited.2, next)) (loader : σ) :
    ∃ last, Loads load loader pairs last := by
  induction pairs generalizing loader with
  | nil => exact ⟨loader, rfl⟩
  | cons head pairs ih =>
    obtain ⟨next, hload⟩ := hsupplies head (by simp) loader
    obtain ⟨last, hlast⟩ :=
      ih (fun visited hmem => hsupplies visited (by simp [hmem])) next
    exact ⟨last, next, hload, hlast⟩

end Loads

namespace Walk

variable {Node σ : Type} {w : Walk Node σ} {leaf : Nat → Cv} {outboard : Outboard Node}

/-- What a walk expects of a subtree agrees with the tree. -/
def Expects (w : Walk Node σ) (leaf : Nat → Cv) (s : Subtree Node) :
    Option Cv → Prop
  | some cv => cv = s.value w.hash.join leaf
  | none => ∀ left right, s.children w.numbering = some (left, right) →
      w.hash.joinRoot (left.value w.hash.join leaf) (right.value w.hash.join leaf) = w.root

theorem expects_value (w : Walk Node σ) (leaf : Nat → Cv) (s : Subtree Node) :
    w.Expects leaf s (some (s.value w.hash.join leaf)) :=
  rfl

theorem report_eq (w : Walk Node σ) (s : Subtree Node) (expected : Option Cv)
    (progress : Progress Node σ) :
    w.report s expected progress =
      { progress with proven := (w.report s expected progress).proven } := by
  cases expected <;> rfl

variable {s : Subtree Node} {expected : Option Cv} {progress : Progress Node σ}

theorem check_pairOf {left right : Subtree Node} (hexpects : w.Expects leaf s expected)
    (hchildren : s.children w.numbering = some (left, right)) :
    w.check s expected (pairOf w.hash leaf left right) = .ok () := by
  have hsplits := Subtree.splits_of_children hchildren
  unfold check
  split
  · cases expected with
    | none =>
      have hroot := hexpects left right hchildren
      exact if_pos hroot
    | some cv =>
      have hjoin : w.hash.join (left.value w.hash.join leaf) (right.value w.hash.join leaf) = cv :=
        hsplits.value_eq.symm.trans hexpects.symm
      exact if_pos hjoin
  · rfl

theorem visit_pairOf {left right : Subtree Node} (hexpects : w.Expects leaf s expected)
    (hchildren : s.children w.numbering = some (left, right)) {next : σ}
    (hload : w.load s.node progress.loader = .ok (pairOf w.hash leaf left right, next)) :
    w.visit s expected progress = .ok (pairOf w.hash leaf left right,
      progress.push next s.node (pairOf w.hash leaf left right)) := by
  rw [visit, hload]
  change (w.check s expected (pairOf w.hash leaf left right)).bind _ = _
  rw [check_pairOf hexpects hchildren]
  rfl

/-- A walk that stops at a subtree or passes it by loads nothing. -/
theorem descend_of_not_visited
    (hnot : ¬(w.ranges.overlaps s.start s.stop = true ∧ w.stopsAt s = false))
    (expected : Option Cv) (htruncated : progress.truncatedAt = none) :
    ∃ proven, w.descend s expected progress = .ok { progress with proven := proven } := by
  by_cases hoverlaps : w.ranges.overlaps s.start s.stop = true
  · have hstops : w.stopsAt s = true := by simpa [hoverlaps] using hnot
    rw [descend_stops htruncated hoverlaps hstops, report_eq]
    exact ⟨_, rfl⟩
  · exact ⟨progress.proven, descend_outside (by simpa using hoverlaps) expected⟩

/-- A walk fed with the pairs of a complete tree visits its trail. -/
theorem descend_complete (hcomplete : CompleteBelow w.hash w.numbering leaf outboard s)
    (hexpects : w.Expects leaf s expected) (htruncated : progress.truncatedAt = none) {loader : σ}
    (hloads : Loads w.load progress.loader
      (trail w.hash w.numbering leaf w.ranges w.stopsAt s) loader)
    (hbudget : progress.nodes.length +
      (trail w.hash w.numbering leaf w.ranges w.stopsAt s).length ≤ w.budget) :
    ∃ proven, w.descend s expected progress = .ok
      { loader := loader
        nodes := progress.nodes ++ trail w.hash w.numbering leaf w.ranges w.stopsAt s
        proven := proven
        truncatedAt := none } := by
  induction hcomplete generalizing expected progress loader with
  | @group s hone =>
    have hnot : ¬(w.ranges.overlaps s.start s.stop = true ∧ w.stopsAt s = false) := by
      simp [stopsAt, hone]
    obtain ⟨proven, hdescend⟩ := descend_of_not_visited hnot expected htruncated
    rw [trail_of_group hone] at hloads ⊢
    obtain rfl : progress.loader = loader := hloads
    exact ⟨proven, by rw [hdescend, append_nil, htruncated]⟩
  | @node s left right hchildren hpair hleft hright ihLeft ihRight =>
    by_cases hvisit : w.ranges.overlaps s.start s.stop = true ∧ w.stopsAt s = false
    · obtain ⟨hoverlaps, hstops⟩ := hvisit
      rw [trail_of_children hoverlaps hstops hchildren] at hloads hbudget ⊢
      rw [length_cons, length_append] at hbudget
      obtain ⟨next, hload, hrest⟩ := hloads
      obtain ⟨middle, hfirst, hsecond⟩ := loads_append.mp hrest
      let pushed := progress.push next s.node (pairOf w.hash leaf left right)
      have hpushed : pushed.nodes.length = progress.nodes.length + 1 := by
        simp [pushed, Progress.push]
      have hexpectsLeft := w.expects_value leaf left
      have hexpectsRight := w.expects_value leaf right
      have hopen : pushed.truncatedAt = none := htruncated
      obtain ⟨provenLeft, hdescendLeft⟩ := ihLeft hexpectsLeft hopen hfirst (by omega)
      let between : Progress Node σ :=
        { loader := middle
          nodes := pushed.nodes ++ trail w.hash w.numbering leaf w.ranges w.stopsAt left
          proven := provenLeft }
      have hbetween : between.nodes.length = pushed.nodes.length +
          (trail w.hash w.numbering leaf w.ranges w.stopsAt left).length :=
        length_append
      have hopen' : between.truncatedAt = none := rfl
      obtain ⟨provenRight, hdescendRight⟩ :=
        ihRight hexpectsRight hopen' hsecond (by omega)
      refine ⟨provenRight, ?_⟩
      rw [descend_visits htruncated hoverlaps hstops (by omega) hchildren,
        visit_pairOf hexpects hchildren hload]
      change (w.descend left (some (left.value w.hash.join leaf)) pushed).bind _ = _
      rw [hdescendLeft]
      change w.descend right (some (right.value w.hash.join leaf)) between = _
      rw [hdescendRight]
      simp [between, pushed, Progress.push]
    · obtain ⟨proven, hdescend⟩ := descend_of_not_visited hvisit expected htruncated
      rw [trail_of_not hvisit] at hloads ⊢
      obtain rfl : progress.loader = loader := hloads
      exact ⟨proven, by rw [hdescend, append_nil, htruncated]⟩

/-- A walk over a complete tree that needs more nodes than its budget is cut
short, and never fails otherwise. -/
theorem descend_truncates (hcomplete : CompleteBelow w.hash w.numbering leaf outboard s)
    (hsupplies : ∀ node pair loader, outboard node = some pair →
      ∃ next, w.load node loader = .ok (pair, next))
    (hexpects : w.Expects leaf s expected) (htruncated : progress.truncatedAt = none)
    (hnodes : progress.nodes.length ≤ w.budget)
    (hover : w.budget < progress.nodes.length +
      (trail w.hash w.numbering leaf w.ranges w.stopsAt s).length) :
    ∃ cut group, w.descend s expected progress = .ok cut ∧ cut.truncatedAt = some group := by
  induction hcomplete generalizing expected progress with
  | @group s hone =>
    rw [trail_of_group hone, length_nil] at hover
    omega
  | @node s left right hchildren hpair hleft hright ihLeft ihRight =>
    by_cases hvisit : w.ranges.overlaps s.start s.stop = true ∧ w.stopsAt s = false
    · obtain ⟨hoverlaps, hstops⟩ := hvisit
      rw [trail_of_children hoverlaps hstops hchildren, length_cons, length_append] at hover
      rcases Nat.lt_or_ge progress.nodes.length w.budget with hroom | hfull
      · obtain ⟨next, hload⟩ := hsupplies s.node _ progress.loader hpair
        let pushed := progress.push next s.node (pairOf w.hash leaf left right)
        have hpushed : pushed.nodes.length = progress.nodes.length + 1 := by
          simp [pushed, Progress.push]
        have hopen : pushed.truncatedAt = none := htruncated
        have hexpectsLeft := w.expects_value leaf left
        have hexpectsRight := w.expects_value leaf right
        rw [descend_visits htruncated hoverlaps hstops hroom hchildren,
          visit_pairOf hexpects hchildren hload]
        change ∃ cut group,
          (w.descend left (some (left.value w.hash.join leaf)) pushed).bind _ = _ ∧ _
        -- The budget runs out either on the left or on the right.
        by_cases hfits : pushed.nodes.length +
            (trail w.hash w.numbering leaf w.ranges w.stopsAt left).length ≤ w.budget
        · obtain ⟨last, hloads⟩ := exists_loads (fun visited hmem loader =>
              hsupplies _ _ loader (hleft.outboard_of_mem_trail hmem)) pushed.loader
          obtain ⟨proven, hdescendLeft⟩ :=
            descend_complete hleft hexpectsLeft hopen hloads hfits
          rw [hdescendLeft]
          exact ihRight hexpectsRight rfl (by rw [length_append]; omega)
            (by rw [length_append]; omega)
        · obtain ⟨cut, group, hdescendLeft, hcut⟩ :=
            ihLeft hexpectsLeft hopen (by omega) (by omega)
          refine ⟨cut, group, ?_, hcut⟩
          rw [hdescendLeft]
          exact descend_truncated (by simp [hcut]) _
      · exact ⟨_, s.start, descend_overBudget htruncated hoverlaps hstops hfull _, rfl⟩
    · rw [trail_of_not hvisit, length_nil] at hover
      omega

end Walk

end Synch.Proofs
