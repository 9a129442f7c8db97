import Mathlib.Data.List.Destutter
import Mathlib.Data.List.Sort
import Mathlib.Algebra.GroupWithZero.Nat

/-!
# Lists without repetition

Two ways a program finds that a list has no repetition: it drops later copies
and compares lengths, or it sorts the list and drops adjacent copies.  A list in
strictly ascending order is known from its members.  The last section follows the total
weight of a list while one entry is replaced.
-/

namespace Synch.Support

open List

variable {α : Type*}

section EraseDups

variable [BEq α]

theorem length_eraseDups_le (l : List α) : l.eraseDups.length ≤ l.length := by
  induction hn : l.length using Nat.strong_induction_on generalizing l with
  | _ n ih =>
    cases l with
    | nil => simp
    | cons a l =>
      have hfilter := length_filter_le (fun b => !b == a) l
      have hrest := ih _ (by simp at hn; omega) (l.filter fun b => !b == a) rfl
      rw [eraseDups_cons, length_cons]
      simp only [length_cons] at hn
      omega

theorem length_eraseDups_eq_iff [LawfulBEq α] (l : List α) :
    l.eraseDups.length = l.length ↔ l.Nodup := by
  induction l with
  | nil => simp
  | cons a l ih =>
    have hfilter := length_filter_le (fun b => !b == a) l
    have hrest := length_eraseDups_le (l.filter fun b => !b == a)
    rw [eraseDups_cons, length_cons, length_cons, nodup_cons]
    constructor
    · intro hlength
      -- nothing was filtered out, so the head does not occur again
      have hall := length_filter_eq_length_iff.mp
        (by omega : (l.filter fun b => !b == a).length = l.length)
      rw [filter_eq_self.mpr hall] at hlength
      refine ⟨fun hmem => ?_, ih.mp (by omega)⟩
      have hne := hall a hmem
      simp at hne
    · rintro ⟨hnotMem, hnodup⟩
      have hself : l.filter (fun b => !b == a) = l := by
        apply filter_eq_self.mpr
        intro b hb
        have hne : b ≠ a := fun h => hnotMem (h ▸ hb)
        simpa using hne
      rw [hself, ih.mpr hnodup]

theorem nodup_eraseDups [LawfulBEq α] (l : List α) : l.eraseDups.Nodup := by
  induction hn : l.length using Nat.strong_induction_on generalizing l with
  | _ n ih =>
    cases l with
    | nil => simp
    | cons a l =>
      have hfilter := length_filter_le (fun b => !b == a) l
      rw [length_cons] at hn
      rw [eraseDups_cons, nodup_cons]
      refine ⟨fun hmem => ?_, ih _ (by omega) (l.filter fun b => !b == a) rfl⟩
      simpa using (mem_filter.mp (mem_eraseDups.mp hmem)).2

end EraseDups

theorem one_lt_length_iff_of_nodup {l : List α} (h : l.Nodup) :
    1 < l.length ↔ ∃ a ∈ l, ∃ b ∈ l, a ≠ b := by
  match l, h with
  | [], _ => simp
  | [a], _ => simp
  | a :: b :: rest, h =>
    have hne : a ≠ b := fun hab => (nodup_cons.mp h).1 (hab ▸ mem_cons_self)
    exact iff_of_true (by simp) ⟨a, by simp, b, by simp, hne⟩

/-- Lists in strictly ascending order with the same members are the same. -/
theorem eq_of_ascending_of_mem_iff [Ord α] [Std.TransOrd α] {l l' : List α}
    (hl : l.Pairwise fun a b => compare a b = .lt) (hl' : l'.Pairwise fun a b => compare a b = .lt)
    (hmem : ∀ a, a ∈ l ↔ a ∈ l') : l = l' := by
  have hne : ∀ {a b : α}, compare a b = .lt → a ≠ b := by
    rintro a b hlt rfl
    simp at hlt
  have hperm : l.Perm l' :=
    (perm_ext_iff_of_nodup (hl.imp hne) (hl'.imp hne)).mpr hmem
  refine hperm.eq_of_pairwise (fun a b _ _ hab hba => ?_) hl hl'
  exact absurd hba (Std.OrientedCmp.not_lt_of_lt hab)

theorem length_destutter_insertionSort_eq_iff [LinearOrder α] (l : List α) :
    ((l.insertionSort (· ≤ ·)).destutter (· ≠ ·)).length = (l.insertionSort (· ≤ ·)).length ↔
      l.Nodup := by
  have hperm : (l.insertionSort (· ≤ ·)).Perm l := perm_insertionSort _ l
  rw [← hperm.nodup_iff]
  have hsorted : (l.insertionSort (· ≤ ·)).Pairwise (· ≤ ·) :=
    sortedLE_insertionSort.pairwise
  constructor
  · intro hlength
    have hself := (destutter_sublist _ _).eq_of_length hlength
    have hchain := (destutter_eq_self_iff _ _).mp hself
    -- adjacent entries of a sorted list differ, so the list increases strictly
    have hlt : (l.insertionSort (· ≤ ·)).IsChain (· < ·) := by
      rw [isChain_iff_getElem] at hchain ⊢
      intro i hi
      exact lt_of_le_of_ne (isChain_iff_getElem.mp hsorted.isChain i hi) (hchain i hi)
    exact hlt.pairwise.imp ne_of_lt
  · intro hnodup
    rw [destutter_of_isChain _ _ (List.Pairwise.isChain hnodup)]

/-- Replacing one entry changes the total weight by the difference of the two weights. -/
theorem sum_map_set_add
    (weight : α → Nat) {l : List α} {i : Nat} {a : α} (b : α) (h : l[i]? = some a) :
    ((l.set i b).map weight).sum + weight a = (l.map weight).sum + weight b := by
  induction l generalizing i with
  | nil => simp at h
  | cons head rest ih =>
    cases i with
    | zero =>
      obtain rfl : head = a := by simpa using h
      simp only [set_cons_zero, map_cons, sum_cons]
      omega
    | succ i =>
      have hrest := ih (by simpa using h)
      simp only [set_cons_succ, map_cons, sum_cons]
      omega

end Synch.Support
