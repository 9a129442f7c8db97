import Mathlib.Data.Nat.Log
import Synch.Support.Merkle

/-!
# The subtrees of an object's tree

A subtree covers a run of chunk groups inside an untruncated width that is a
power of two, kept here by its exponent.  The names of the nodes belong to the
tree library and are a parameter.
-/

namespace Synch.Proofs

open Synch.Support

def chunkGroupSize : Nat := 16 * 1024

/-- The chunk groups an object of `size` bytes occupies. -/
def groupCount (size : Nat) : Nat :=
  max ((size + (chunkGroupSize - 1)) / chunkGroupSize) 1

/-- How the tree library names the nodes of a tree. -/
structure Numbering (Node : Type) where
  root : Nat → Node
  leftChild : Node → Option Node
  rightChild : Node → Option Node

/-- One node of an object's tree: the groups it covers, and the least power of
two that holds them. -/
structure Subtree (Node : Type) where
  node : Node
  start : Nat
  groups : Nat
  level : Nat
  groups_pos : 0 < groups
  groups_le : groups ≤ 2 ^ level
  span_lt : 2 ^ level < 2 * groups

variable {Node : Type}

theorem groupCount_pos (size : Nat) : 0 < groupCount size :=
  lt_of_lt_of_le Nat.zero_lt_one (le_max_right _ _)

namespace Subtree

/-- The untruncated width. -/
def span (s : Subtree Node) : Nat :=
  2 ^ s.level

/-- One past the last group covered. -/
def stop (s : Subtree Node) : Nat :=
  s.start + s.groups

/-- Whether the subtree is full and inside an object of `size` bytes. -/
def isWhole (s : Subtree Node) (size : Nat) : Bool :=
  s.groups == s.span && decide (s.stop * chunkGroupSize ≤ size)

theorem pow_clog_lt {n : Nat} (hn : 0 < n) : 2 ^ Nat.clog 2 n < 2 * n := by
  rcases Nat.lt_or_ge 1 n with hmore | hone
  · have hpred := Nat.pow_pred_clog_lt_self (by decide : 1 < 2) hmore
    have hclog : 0 < Nat.clog 2 n := Nat.clog_pos (by decide) hmore
    obtain ⟨k, hk⟩ := Nat.exists_eq_succ_of_ne_zero hclog.ne'
    rw [hk] at hpred ⊢
    rw [Nat.pred_succ] at hpred
    rw [Nat.pow_succ]
    omega
  · obtain rfl : n = 1 := by omega
    simp

/-- The whole tree of an object of `size` bytes. -/
def rootOf (numbering : Numbering Node) (size : Nat) : Subtree Node where
  node := numbering.root size
  start := 0
  groups := groupCount size
  level := Nat.clog 2 (groupCount size)
  groups_pos := groupCount_pos size
  groups_le := Nat.le_pow_clog (by decide) _
  span_lt := pow_clog_lt (groupCount_pos size)

/-- Walk down the left edge to the least width that holds the groups. -/
def collapse (numbering : Numbering Node) (groups : Nat) :
    Nat → Node → Option (Node × Nat)
  | 0, node => some (node, 0)
  | level + 1, node =>
    if groups ≤ 2 ^ level then
      (numbering.leftChild node).bind (collapse numbering groups level)
    else
      some (node, level + 1)

theorem collapse_eq_some {numbering : Numbering Node} {groups level level' : Nat}
    {node node' : Node} (h : collapse numbering groups level node = some (node', level'))
    (hpos : 0 < groups) (hle : groups ≤ 2 ^ level) :
    level' ≤ level ∧ groups ≤ 2 ^ level' ∧ 2 ^ level' < 2 * groups := by
  induction level generalizing node with
  | zero =>
    cases h
    refine ⟨le_rfl, hle, ?_⟩
    rw [Nat.pow_zero]
    omega
  | succ level ih =>
    rw [collapse] at h
    split at h
    · rename_i hfits
      obtain ⟨child, -, hchild⟩ := Option.bind_eq_some_iff.mp h
      obtain ⟨hlevel, hrest⟩ := ih hchild hfits
      exact ⟨hlevel.trans (Nat.le_succ level), hrest⟩
    · rename_i hwide
      cases h
      refine ⟨le_rfl, hle, ?_⟩
      rw [Nat.pow_succ]
      omega

theorem half_lt_groups (s : Subtree Node) (hmore : ¬s.groups ≤ 1) :
    2 ^ (s.level - 1) < s.groups ∧ s.groups ≤ 2 * 2 ^ (s.level - 1) := by
  have hle := s.groups_le
  have hlt := s.span_lt
  cases hlevel : s.level with
  | zero =>
    rw [hlevel, Nat.pow_zero] at hle
    omega
  | succ k =>
    rw [hlevel, Nat.pow_succ] at hle hlt
    rw [Nat.succ_sub_one]
    omega

theorem pow_lt_span (level : Nat) : 2 ^ level < 2 * 2 ^ level := by
  have hpos := Nat.two_pow_pos level
  omega

/-- The right half of a subtree fits the width it collapses to. -/
theorem right_fits {numbering : Numbering Node} {s : Subtree Node} {node node' : Node} {level : Nat}
    (hmore : ¬s.groups ≤ 1)
    (h : collapse numbering (s.groups - 2 ^ (s.level - 1)) (s.level - 1) node =
      some (node', level)) :
    0 < s.groups - 2 ^ (s.level - 1) ∧ s.groups - 2 ^ (s.level - 1) ≤ 2 ^ level ∧
      2 ^ level < 2 * (s.groups - 2 ^ (s.level - 1)) := by
  have hhalf := s.half_lt_groups hmore
  have hpos : 0 < s.groups - 2 ^ (s.level - 1) := by omega
  exact ⟨hpos, (collapse_eq_some h hpos (by omega)).2⟩

/-- The two halves of a subtree of more than one group.  The left half is full
and the right one collapses to its own width. -/
def children (numbering : Numbering Node) (s : Subtree Node) :
    Option (Subtree Node × Subtree Node) :=
  if hmore : s.groups ≤ 1 then
    none
  else
    let half := 2 ^ (s.level - 1)
    match numbering.leftChild s.node, numbering.rightChild s.node with
    | some leftNode, some rightNode =>
      match hright : collapse numbering (s.groups - half) (s.level - 1) rightNode with
      | some (node, level) =>
        have hfits := right_fits hmore hright
        some
          ({ node := leftNode
             start := s.start
             groups := half
             level := s.level - 1
             groups_pos := Nat.two_pow_pos _
             groups_le := le_rfl
             span_lt := pow_lt_span _ },
           { node := node
             start := s.start + half
             groups := s.groups - half
             level := level
             groups_pos := hfits.1
             groups_le := hfits.2.1
             span_lt := hfits.2.2 })
      | none => none
    | _, _ => none

/-- How the children of a subtree share its groups. -/
structure Splits (s left right : Subtree Node) : Prop where
  more : 1 < s.groups
  left_level : left.level < s.level
  right_level : right.level < s.level
  left_start : left.start = s.start
  left_groups : left.groups = 2 ^ (s.level - 1)
  right_start : right.start = s.start + 2 ^ (s.level - 1)
  right_groups : right.groups = s.groups - 2 ^ (s.level - 1)

theorem level_pos (s : Subtree Node) (hmore : 1 < s.groups) : 0 < s.level := by
  rcases Nat.eq_zero_or_pos s.level with hzero | hpos
  · have hle := s.groups_le
    rw [hzero, Nat.pow_zero] at hle
    omega
  · exact hpos

variable {s left right : Subtree Node}

theorem splits_of_children {numbering : Numbering Node}
    (h : s.children numbering = some (left, right)) : s.Splits left right := by
  unfold children at h
  split at h
  · cases h
  · rename_i hmore
    have hlevel := s.level_pos (not_le.mp hmore)
    dsimp only at h
    split at h
    · split at h
      · rename_i hcollapse
        cases h
        have hhalf := s.half_lt_groups hmore
        have hspec := collapse_eq_some hcollapse (by omega) (by omega)
        exact
          { more := not_le.mp hmore
            left_level := Nat.sub_lt hlevel Nat.zero_lt_one
            right_level := lt_of_le_of_lt hspec.1 (Nat.sub_lt hlevel Nat.zero_lt_one)
            left_start := rfl
            left_groups := rfl
            right_start := rfl
            right_groups := rfl }
      · cases h
    · cases h

theorem Splits.left_stop_le (h : s.Splits left right) : left.stop ≤ s.stop := by
  have hhalf := s.half_lt_groups (not_le.mpr h.more)
  unfold stop
  rw [h.left_start, h.left_groups]
  omega

theorem Splits.right_stop (h : s.Splits left right) : right.stop = s.stop := by
  have hhalf := s.half_lt_groups (not_le.mpr h.more)
  unfold stop
  rw [h.right_start, h.right_groups]
  omega

/-- The chaining value of a subtree over given group values. -/
def value {Cv : Type} (join : Cv → Cv → Cv) (leaf : Nat → Cv) (s : Subtree Node) : Cv :=
  treeValue join leaf s.start s.groups

theorem Splits.value_eq {Cv : Type} {join : Cv → Cv → Cv} {leaf : Nat → Cv}
    (h : s.Splits left right) :
    s.value join leaf = join (left.value join leaf) (right.value join leaf) := by
  have hhalf := s.half_lt_groups (not_le.mpr h.more)
  unfold value
  rw [h.left_start, h.left_groups, h.right_start, h.right_groups]
  refine treeValue_split join leaf hhalf.1 ?_ s.start
  rw [Nat.pow_succ]
  omega

end Subtree

end Synch.Proofs
