import Synch.Support.Maps

/-!
# Tables derived from a map

A table shows a map if it has one row for each key that names a row, computed
from the key's value.  Applying the differences between two maps to a table that
shows the first makes it show the second.
-/

namespace Synch.Support

open Std (TreeMap)
open Function List

section Differences

variable {κ ν : Type*} [Ord κ] [DecidableEq ν]

/-- The keys on which two maps differ, with the second map's values. -/
def differences (old new : TreeMap κ ν) : List (κ × Option ν) :=
  (old.toList.filterMap fun (key, _) =>
      if new.contains key then none else some (key, none)) ++
    new.toList.filterMap fun (key, value) =>
      if old[key]? = some value then none else some (key, some value)

theorem mem_differences_iff [Std.TransOrd κ] [Std.LawfulEqOrd κ] {old new : TreeMap κ ν} {key : κ}
    {value : Option ν} :
    (key, value) ∈ differences old new ↔ old[key]? ≠ new[key]? ∧ value = new[key]? := by
  rw [differences, mem_append, mem_filterMap, mem_filterMap]
  constructor
  · rintro (⟨⟨k, v⟩, hmem, hsome⟩ | ⟨⟨k, v⟩, hmem, hsome⟩)
    · have hold := TreeMap.mem_toList_iff_getElem?_eq_some.mp hmem
      by_cases hnew : new.contains k = true
      · simp [hnew] at hsome
      · simp only [hnew, Bool.false_eq_true, if_false, Option.some.injEq, Prod.mk.injEq] at hsome
        obtain ⟨rfl, rfl⟩ := hsome
        rw [Bool.not_eq_true, contains_eq_false_iff] at hnew
        rw [hold, hnew]
        exact ⟨by simp, rfl⟩
    · have hnew := TreeMap.mem_toList_iff_getElem?_eq_some.mp hmem
      by_cases hold : old[k]? = some v
      · simp [hold] at hsome
      · simp only [hold, if_false, Option.some.injEq, Prod.mk.injEq] at hsome
        obtain ⟨rfl, rfl⟩ := hsome
        rw [hnew]
        exact ⟨hold, rfl⟩
  · rintro ⟨hdiffer, rfl⟩
    cases hnew : new[key]? with
    | none =>
      cases hold : old[key]? with
      | none => exact absurd (hold.trans hnew.symm) hdiffer
      | some v =>
        refine .inl ⟨(key, v), TreeMap.mem_toList_iff_getElem?_eq_some.mpr hold, ?_⟩
        have habsent := contains_eq_false_iff.mpr hnew
        simp [habsent]
    | some v =>
      refine .inr ⟨(key, v), TreeMap.mem_toList_iff_getElem?_eq_some.mpr hnew, ?_⟩
      rw [hnew] at hdiffer
      simp [hdiffer]

end Differences

/-! ## Derived rows -/

/-- How rows come from a map: which row a key names, how the row is computed
from the key's value, and how a row tells its name. -/
structure Derivation (κ ν ι ρ ε : Type) where
  named : κ → Option ι
  row : ι → ν → Except ε ρ
  nameOf : ρ → ι

namespace Derivation

variable {κ ν ι ρ ε : Type}

/-- Names are not shared between keys, and rows tell their own. -/
structure Lawful (d : Derivation κ ν ι ρ ε) : Prop where
  named_injective : ∀ {a b name}, d.named a = some name → d.named b = some name → a = b
  nameOf_row : ∀ {name value row}, d.row name value = .ok row → d.nameOf row = name

/-- Every key that names a row has one, and the table has exactly these rows. -/
structure Shows (d : Derivation κ ν ι ρ ε) (rows : List ρ) (map : κ → Option ν) :
    Prop where
  computed : ∀ {key value name}, map key = some value → d.named key = some name →
    ∃ row, d.row name value = .ok row
  mem_iff : ∀ {row}, row ∈ rows ↔
    ∃ key value name, map key = some value ∧ d.named key = some name ∧ d.row name value = .ok row

variable {d : Derivation κ ν ι ρ ε}

variable {rows rows' : List ρ} {map : κ → Option ν} {key : κ}

/-- A table gains the row of a key that had none. -/
theorem Shows.add [DecidableEq κ] (h : d.Shows rows map) {value : ν} {name : ι} {newRow : ρ}
    (habsent : map key = none) (hname : d.named key = some name)
    (hrow : d.row name value = .ok newRow) :
    d.Shows (newRow :: rows) (update map key (some value)) where
  computed := by
    intro other v otherName hvalue hnamed
    by_cases hkey : other = key
    · subst hkey
      rw [update_self] at hvalue
      cases hvalue
      rw [hname] at hnamed
      cases hnamed
      exact ⟨newRow, hrow⟩
    · rw [update_of_ne hkey] at hvalue
      exact h.computed hvalue hnamed
  mem_iff := by
    intro row
    rw [mem_cons, h.mem_iff]
    constructor
    · rintro (rfl | ⟨other, v, otherName, hvalue, hnamed, hother⟩)
      · exact ⟨key, value, name, update_self .., hname, hrow⟩
      · have hkey : other ≠ key := by
          rintro rfl
          rw [habsent] at hvalue
          cases hvalue
        exact ⟨other, v, otherName, by rwa [update_of_ne hkey], hnamed, hother⟩
    · rintro ⟨other, v, otherName, hvalue, hnamed, hother⟩
      by_cases hkey : other = key
      · subst hkey
        rw [update_self] at hvalue
        cases hvalue
        rw [hname] at hnamed
        cases hnamed
        rw [hrow] at hother
        cases hother
        exact .inl rfl
      · rw [update_of_ne hkey] at hvalue
        exact .inr ⟨other, v, otherName, hvalue, hnamed, hother⟩

/-- Maps that agree on the keys that name rows are shown by the same tables. -/
theorem Shows.congr {map' : κ → Option ν} (h : d.Shows rows map)
    (hsame : ∀ {key name}, d.named key = some name → map' key = map key) :
    d.Shows rows map' where
  computed hvalue hnamed := h.computed (hsame hnamed ▸ hvalue) hnamed
  mem_iff := by
    intro row
    rw [h.mem_iff]
    constructor
    · rintro ⟨key, value, name, hvalue, hnamed, hrow⟩
      exact ⟨key, value, name, (hsame hnamed).trans hvalue, hnamed, hrow⟩
    · rintro ⟨key, value, name, hvalue, hnamed, hrow⟩
      exact ⟨key, value, name, (hsame hnamed).symm.trans hvalue, hnamed, hrow⟩

variable [DecidableEq κ] [DecidableEq ι]

/-- Bring the row of one key up to date. -/
def apply (d : Derivation κ ν ι ρ ε) (rows : List ρ) (change : κ × Option ν) : Except ε (List ρ) :=
  match d.named change.1 with
  | none => .ok rows
  | some name =>
    let others := rows.filter fun row => d.nameOf row ≠ name
    match change.2 with
    | none => .ok others
    | some value => (d.row name value).map fun row => row :: others

def refresh (d : Derivation κ ν ι ρ ε) (rows : List ρ) (changes : List (κ × Option ν)) :
    Except ε (List ρ) :=
  changes.foldlM d.apply rows

/-- A table keeps the rows of the other keys when one row is dropped. -/
theorem Shows.others (hlawful : d.Lawful) (h : d.Shows rows map) {name : ι}
    (hname : d.named key = some name) :
    d.Shows (rows.filter fun row => d.nameOf row ≠ name) (update map key none) where
  computed := by
    intro other value otherName hvalue hnamed
    have hkey : other ≠ key := by
      rintro rfl
      rw [update_self] at hvalue
      cases hvalue
    rw [update_of_ne hkey] at hvalue
    exact h.computed hvalue hnamed
  mem_iff := by
    intro row
    rw [mem_filter, h.mem_iff]
    constructor
    · rintro ⟨⟨other, value, otherName, hvalue, hother, hrow⟩, hne⟩
      rw [hlawful.nameOf_row hrow] at hne
      have hkey : other ≠ key := by
        rintro rfl
        rw [hname] at hother
        cases hother
        simp at hne
      exact ⟨other, value, otherName, by rwa [update_of_ne hkey], hother, hrow⟩
    · rintro ⟨other, value, otherName, hvalue, hother, hrow⟩
      have hkey : other ≠ key := by
        rintro rfl
        rw [update_self] at hvalue
        cases hvalue
      rw [update_of_ne hkey] at hvalue
      refine ⟨⟨other, value, otherName, hvalue, hother, hrow⟩, ?_⟩
      rw [hlawful.nameOf_row hrow]
      have hnames : otherName ≠ name := by
        rintro rfl
        exact hkey (hlawful.named_injective hother hname)
      simpa using hnames

theorem Shows.apply (hlawful : d.Lawful) (h : d.Shows rows map) {value : Option ν}
    (happly : d.apply rows (key, value) = .ok rows') :
    d.Shows rows' (update map key value) := by
  rw [Derivation.apply] at happly
  cases hname : d.named key with
  | none =>
    rw [hname] at happly
    cases happly
    refine h.congr fun {other name} hother => update_of_ne ?_ ..
    rintro rfl
    rw [hname] at hother
    cases hother
  | some name =>
    rw [hname] at happly
    have hothers := h.others hlawful hname
    cases value with
    | none =>
      cases happly
      exact hothers
    | some v =>
      cases hrow : d.row name v with
      | error reason =>
        simp only [hrow] at happly
        cases happly
      | ok newRow =>
        simp only [hrow] at happly
        cases happly
        have hadd := hothers.add (update_self ..) hname hrow
        rwa [update_idem] at hadd

/-- Applying changes that lead to `new`, and all of them, makes the table show
`new`. -/
theorem Shows.refresh (hlawful : d.Lawful) {new : κ → Option ν} {changes : List (κ × Option ν)}
    (h : d.Shows rows map) (hsound : ∀ change ∈ changes, change.2 = new change.1)
    (hcomplete : ∀ key, map key ≠ new key → (key, new key) ∈ changes)
    (hrefresh : d.refresh rows changes = .ok rows') : d.Shows rows' new := by
  induction changes generalizing rows map with
  | nil =>
    cases hrefresh
    have hsame : map = new := by
      funext key
      by_contra hne
      exact absurd (hcomplete key hne) (by simp)
    exact hsame ▸ h
  | cons change changes ih =>
    obtain ⟨key, value⟩ := change
    cases happly : d.apply rows (key, value) with
    | error reason =>
      rw [Derivation.refresh, foldlM_cons, happly] at hrefresh
      cases hrefresh
    | ok middle =>
      rw [Derivation.refresh, foldlM_cons, happly] at hrefresh
      have hvalue : value = new key := hsound (key, value) mem_cons_self
      refine ih (h.apply hlawful happly) (fun c hc => hsound c (mem_cons_of_mem _ hc)) ?_ hrefresh
      intro other hne
      by_cases hkey : other = key
      · subst hkey
        rw [update_self] at hne
        exact absurd hvalue hne
      · rw [update_of_ne hkey] at hne
        have hmem := hcomplete other hne
        obtain hhead | htail := mem_cons.mp hmem
        · cases hhead
          exact absurd rfl hkey
        · exact htail

theorem Shows.refresh_differences [Ord κ] [Std.TransOrd κ] [Std.LawfulEqOrd κ] [DecidableEq ν]
    (hlawful : d.Lawful) {old new : TreeMap κ ν} (h : d.Shows rows (old[·]?))
    (hrefresh : d.refresh rows (differences old new) = .ok rows') : d.Shows rows' (new[·]?) := by
  refine h.refresh hlawful ?_ ?_ hrefresh
  · rintro ⟨key, value⟩ hmem
    exact (mem_differences_iff.mp hmem).2
  · intro key hne
    exact mem_differences_iff.mpr ⟨hne, rfl⟩

end Derivation

end Synch.Support
