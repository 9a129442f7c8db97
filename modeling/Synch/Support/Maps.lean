import Mathlib.Order.Compare
import Std.Data.TreeMap.Lemmas

/-!
# Ordered maps

Two views of `Std.TreeMap` that its interface leaves out: absence as a Boolean
test, and the list of values in key order.
-/

namespace Synch.Support

open Std (TreeMap)

variable {α β : Type*} [Ord α]

theorem contains_eq_false_iff [Std.TransOrd α] {map : TreeMap α β} {key : α} :
    map.contains key = false ↔ map[key]? = none := by
  rw [TreeMap.contains_eq_isSome_getElem?]
  cases map[key]? with
  | none => simp
  | some value => simp

theorem contains_eq_true_iff [Std.TransOrd α] {map : TreeMap α β} {key : α} :
    map.contains key = true ↔ ∃ value, map[key]? = some value := by
  rw [TreeMap.contains_eq_isSome_getElem?, Option.isSome_iff_exists]

/-- The values of a map in the order of their keys. -/
def valuesOf (map : TreeMap α β) : List β :=
  map.toList.map Prod.snd

theorem mem_valuesOf_iff [Std.TransOrd α] [Std.LawfulEqOrd α] {map : TreeMap α β} {value : β} :
    value ∈ valuesOf map ↔ ∃ key : α, map[key]? = some value := by
  constructor
  · intro h
    obtain ⟨⟨key, found⟩, hmem, rfl⟩ := List.mem_map.mp h
    exact ⟨key, TreeMap.mem_toList_iff_getElem?_eq_some.mp hmem⟩
  · rintro ⟨key, hkey⟩
    exact List.mem_map.mpr ⟨(key, value), TreeMap.mem_toList_iff_getElem?_eq_some.mpr hkey, rfl⟩

end Synch.Support
