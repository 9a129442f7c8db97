import Mathlib.Data.List.Basic

/-!
# A list in pieces of one length
-/

namespace Synch.Support

open List

variable {α : Type*}

/-- The pieces of a list: each but the last `size` long, the last not empty. -/
def chunksOf (size : Nat) (items : List α) : List (List α) :=
  if items = [] ∨ size = 0 then []
  else items.take size :: chunksOf size (items.drop size)
termination_by items.length
decreasing_by
  rename_i h
  rw [not_or] at h
  have hpos := List.length_pos_iff.mpr h.1
  rw [List.length_drop]
  omega

theorem flatten_chunksOf {size : Nat} (hsize : size ≠ 0) (items : List α) :
    (chunksOf size items).flatten = items := by
  fun_induction chunksOf size items with
  | case1 items h => exact (h.resolve_right hsize).symm
  | case2 items h ih => rw [flatten_cons, ih, take_append_drop]

theorem ne_nil_of_mem_chunksOf {size : Nat} {items piece : List α}
    (h : piece ∈ chunksOf size items) :
    piece ≠ [] := by
  fun_induction chunksOf size items with
  | case1 items hdone => cases h
  | case2 items hmore ih =>
    obtain rfl | hrest := mem_cons.mp h
    · rw [not_or] at hmore
      simpa [hmore.2] using hmore.1
    · exact ih hrest

theorem mem_of_mem_chunksOf {size : Nat} {items piece : List α}
    (h : piece ∈ chunksOf size items) {item : α} (hitem : item ∈ piece) : item ∈ items := by
  fun_induction chunksOf size items with
  | case1 items hdone => cases h
  | case2 items hmore ih =>
    obtain rfl | hrest := mem_cons.mp h
    · exact mem_of_mem_take hitem
    · exact mem_of_mem_drop (ih hrest)

/-- There are no more pieces than the length asks for. -/
theorem length_chunksOf_mul_le (size : Nat) (items : List α) :
    (chunksOf size items).length * size ≤ items.length + (size - 1) := by
  fun_induction chunksOf size items with
  | case1 items hdone => simp
  | case2 items hmore ih =>
    rw [not_or] at hmore
    have hpos := length_pos_iff.mpr hmore.1
    rw [length_drop] at ih
    rw [length_cons, Nat.succ_mul]
    by_cases hlast : items.length ≤ size
    · have hnil : chunksOf size (items.drop size) = [] := by
        rw [chunksOf, if_pos (.inl (drop_of_length_le hlast))]
      rw [hnil, length_nil]
      omega
    · omega

end Synch.Support
