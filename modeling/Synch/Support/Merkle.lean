import Mathlib.Order.Nat
import Mathlib.Algebra.Group.Nat.Defs

/-!
# Left-balanced hash trees

The tree over `n` leaves splits at the largest power of two below `n`.  It is
computed under any bound `2 ^ height` on its width; a bound that is too wide
descends on the left without adding a node.
-/

namespace Synch.Support

variable {α : Type*} (join : α → α → α) (leaf : Nat → α)

/-- The value of the tree over the `n` leaves from `start`, at most `2 ^ height`
of them. -/
def treeValueUpTo : (height start n : Nat) → α
  | 0, start, _ => leaf start
  | height + 1, start, n =>
    if n ≤ 2 ^ height then
      treeValueUpTo height start n
    else
      join (treeValueUpTo height start (2 ^ height))
        (treeValueUpTo height (start + 2 ^ height) (n - 2 ^ height))

variable {height n start : Nat}

/-- What a wider bound leaves as it is does not depend on the bound. -/
theorem upTo_congr {β : Type*} {F : Nat → β}
    (hwider : ∀ height, n ≤ 2 ^ height → F (height + 1) = F height) {height height' : Nat}
    (hn : n ≤ 2 ^ height) (hn' : n ≤ 2 ^ height') : F height = F height' := by
  have hadd {height : Nat} (hn : n ≤ 2 ^ height) (extra : Nat) : F (height + extra) = F height := by
    induction extra with
    | zero => rfl
    | succ extra ih =>
      have hwide : n ≤ 2 ^ (height + extra) :=
        hn.trans (Nat.pow_le_pow_right (by decide) (Nat.le_add_right height extra))
      rw [← Nat.add_assoc, hwider _ hwide, ih]
  rw [← hadd hn height', Nat.add_comm, hadd hn' height]

/-- The value of the tree over the `n` leaves from `start`. -/
def treeValue (start n : Nat) : α :=
  treeValueUpTo join leaf n start n

theorem treeValue_eq_upTo (hn : n ≤ 2 ^ height) :
    treeValue join leaf start n = treeValueUpTo join leaf height start n :=
  upTo_congr (F := fun height => treeValueUpTo join leaf height start n)
    (fun height h => by rw [treeValueUpTo, if_pos h]) Nat.lt_two_pow_self.le hn

theorem treeValue_one (start : Nat) : treeValue join leaf start 1 = leaf start := by
  simp [treeValue, treeValueUpTo]

theorem treeValueUpTo_shift (height offset start n : Nat) :
    treeValueUpTo join leaf height (offset + start) n =
      treeValueUpTo join (fun i => leaf (offset + i)) height start n := by
  induction height generalizing start n with
  | zero => rfl
  | succ height ih =>
    rw [treeValueUpTo, treeValueUpTo, ih, ih, Nat.add_assoc, ih]

/-- The tree over leaves further on is the tree over the leaves renumbered. -/
theorem treeValue_shift (offset n : Nat) :
    treeValue join leaf offset n = treeValue join (fun i => leaf (offset + i)) 0 n :=
  treeValueUpTo_shift join leaf n offset 0 n

theorem treeValueUpTo_const {value : α} (hjoin : join value value = value) (hpos : 0 < n)
    (hn : n ≤ 2 ^ height) (h : ∀ i, start ≤ i → i < start + n → leaf i = value) :
    treeValueUpTo join leaf height start n = value := by
  induction height generalizing start n with
  | zero => exact h start le_rfl (by omega)
  | succ height ih =>
    rw [Nat.pow_succ] at hn
    rw [treeValueUpTo]
    split
    · exact ih hpos ‹_› h
    · have hhalf : 0 < 2 ^ height := Nat.two_pow_pos height
      rw [ih hhalf le_rfl fun i hi hlt => h i hi (by omega),
        ih (by omega) (by omega) fun i hi hlt => h i (by omega) (by omega), hjoin]

/-- A tree of one value that joins to itself has that value. -/
theorem treeValue_const {value : α} (hjoin : join value value = value) (hpos : 0 < n)
    (h : ∀ i, start ≤ i → i < start + n → leaf i = value) : treeValue join leaf start n = value :=
  treeValueUpTo_const join leaf hjoin hpos Nat.lt_two_pow_self.le h

/-- A tree splits into a full left half and the rest. -/
theorem treeValue_split (hmore : 2 ^ height < n) (hn : n ≤ 2 ^ (height + 1)) (start : Nat) :
    treeValue join leaf start n =
      join (treeValue join leaf start (2 ^ height))
        (treeValue join leaf (start + 2 ^ height) (n - 2 ^ height)) := by
  have hrest : n - 2 ^ height ≤ 2 ^ height := by
    rw [Nat.pow_succ] at hn
    omega
  rw [treeValue_eq_upTo join leaf hn, treeValue_eq_upTo join leaf le_rfl,
    treeValue_eq_upTo join leaf hrest, treeValueUpTo, if_neg (Nat.not_le.mpr hmore)]

theorem treeValueUpTo_leaf_congr {leaf' : Nat → α} (hpos : 0 < n) (hn : n ≤ 2 ^ height)
    (h : ∀ i, start ≤ i → i < start + n → leaf i = leaf' i) :
    treeValueUpTo join leaf height start n = treeValueUpTo join leaf' height start n := by
  induction height generalizing start n with
  | zero => exact h start le_rfl (by omega)
  | succ height ih =>
    rw [Nat.pow_succ] at hn
    have hhalf : 0 < 2 ^ height := Nat.two_pow_pos height
    rw [treeValueUpTo, treeValueUpTo]
    split
    · exact ih hpos ‹_› h
    · rw [ih hhalf le_rfl fun i hi hlt => h i hi (by omega),
        ih (by omega) (by omega) fun i hi hlt => h i (by omega) (by omega)]

/-- Only the leaves under the tree matter. -/
theorem treeValue_leaf_congr {leaf' : Nat → α} (hpos : 0 < n)
    (h : ∀ i, start ≤ i → i < start + n → leaf i = leaf' i) :
    treeValue join leaf start n = treeValue join leaf' start n :=
  treeValueUpTo_leaf_congr join leaf hpos Nat.lt_two_pow_self.le h

/-- A tree over complete subtrees is a complete tree. -/
theorem treeValue_blocks (level height start : Nat) :
    treeValue join (fun block => treeValue join leaf (block * 2 ^ level) (2 ^ level)) start
        (2 ^ height) =
      treeValue join leaf (start * 2 ^ level) (2 ^ (height + level)) := by
  induction height generalizing start with
  | zero => rw [Nat.pow_zero, treeValue_one, Nat.zero_add]
  | succ height ih =>
    have hpos : 0 < 2 ^ height := Nat.two_pow_pos height
    have hpos' : 0 < 2 ^ (height + level) := Nat.two_pow_pos (height + level)
    have hdouble : 2 ^ (height + 1) = 2 ^ height + 2 ^ height := by
      rw [Nat.pow_succ, Nat.mul_two]
    have hdouble' : 2 ^ (height + 1 + level) = 2 ^ (height + level) + 2 ^ (height + level) := by
      rw [Nat.add_right_comm, Nat.pow_succ, Nat.mul_two]
    have hright : (start + 2 ^ height) * 2 ^ level = start * 2 ^ level + 2 ^ (height + level) := by
      rw [Nat.add_mul, ← Nat.pow_add]
    have hlt : 2 ^ height < 2 ^ (height + 1) := by omega
    have hlt' : 2 ^ (height + level) < 2 ^ (height + 1 + level) := by omega
    have hle : 2 ^ (height + 1 + level) ≤ 2 ^ (height + level + 1) := by
      rw [Nat.add_right_comm]
    rw [treeValue_split join _ hlt le_rfl, treeValue_split join leaf hlt' hle, hdouble, hdouble', Nat.add_sub_cancel, Nat.add_sub_cancel, ih, ih, hright]

end Synch.Support
