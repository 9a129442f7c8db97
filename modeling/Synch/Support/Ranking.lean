import Mathlib.Data.List.Induction
import Mathlib.Data.List.Sort
import Mathlib.Data.Prod.Lex
import Mathlib.Order.Bounds.Image

/-!
# Ranking rows and groups of rows

Rows carry a time, a name and a group, and a group carries a tag.  Rows are ranked
by time, tag and name.  A group is ranked by the greatest time of its rows, its tag
and the greatest name of its rows, and those need not come from one row.  The
group of the greatest row is the greatest group exactly when no row that ties with
it lends its own group a name above every name of the winner's.
-/

namespace Synch.Support

open List

section MaxBy

variable {α κ : Type*} [LinearOrder κ] (key : α → κ)

/-- The element of greatest key, the last one among equals. -/
def maxBy (l : List α) : Option α :=
  l.foldl (fun best a =>
    match best with
    | none => some a
    | some b => if key b ≤ key a then some a else some b) none

theorem maxBy_append_singleton (l : List α) (a : α) :
    maxBy key (l ++ [a]) =
      match maxBy key l with
      | none => some a
      | some b => if key b ≤ key a then some a else some b := by
  simp [maxBy]

theorem maxBy_eq_none_iff {l : List α} : maxBy key l = none ↔ l = [] := by
  induction l using reverseRecOn with
  | nil => simp [maxBy]
  | append_singleton l a ih =>
    rw [maxBy_append_singleton]
    cases maxBy key l with
    | none => simp
    | some b => by_cases h : key b ≤ key a <;> simp [h]

theorem maxBy_spec {l : List α} {a : α} (h : maxBy key l = some a) :
    a ∈ l ∧ ∀ b ∈ l, key b ≤ key a := by
  induction l using reverseRecOn generalizing a with
  | nil => simp [maxBy] at h
  | append_singleton l c ih =>
    rw [maxBy_append_singleton] at h
    cases hbest : maxBy key l with
    | none =>
      have hl := (maxBy_eq_none_iff key).mp hbest
      simp_all
    | some b =>
      obtain ⟨hmem, hmax⟩ := ih hbest
      rw [hbest] at h
      by_cases hle : key b ≤ key c
      · have hac : c = a := by simpa [hle] using h
        subst hac
        refine ⟨by simp, fun d hd => ?_⟩
        rcases mem_append.mp hd with hd | hd
        · exact (hmax d hd).trans hle
        · rw [mem_singleton.mp hd]
      · have hba : b = a := by simpa [hle] using h
        subst hba
        refine ⟨by simp [hmem], fun d hd => ?_⟩
        rcases mem_append.mp hd with hd | hd
        · exact hmax d hd
        · rw [mem_singleton.mp hd]
          exact (not_le.mp hle).le

end MaxBy

/-! ## Sorting by a key -/

section SortBy

variable {α κ : Type*} [LinearOrder κ] (key : α → κ)

/-- Sorts by a key and keeps the order of elements with the same key. -/
def sortBy (l : List α) : List α :=
  l.insertionSort fun a b => key a ≤ key b

theorem sortBy_perm (l : List α) : (sortBy key l).Perm l :=
  perm_insertionSort _ l

theorem mem_sortBy {l : List α} {a : α} : a ∈ sortBy key l ↔ a ∈ l :=
  (sortBy_perm key l).mem_iff

theorem sortBy_pairwise (l : List α) : (sortBy key l).Pairwise fun a b => key a ≤ key b := by
  have : Std.Total fun a b : α => key a ≤ key b := ⟨fun a b => le_total _ _⟩
  have : IsTrans α fun a b => key a ≤ key b := ⟨fun _ _ _ => le_trans⟩
  exact pairwise_insertionSort _ l

/-- Where elements of one key are equal, sorting forgets the order. -/
theorem sortBy_eq_of_perm {l m : List α} (hperm : l.Perm m)
    (hkey : ∀ a ∈ l, ∀ b ∈ l, key a = key b → a = b) : sortBy key l = sortBy key m := by
  apply List.Perm.eq_of_pairwise _ (sortBy_pairwise key l) (sortBy_pairwise key m)
  · exact (sortBy_perm key l).trans (hperm.trans (sortBy_perm key m).symm)
  · intro a b ha hb hab hba
    have hb : b ∈ l := hperm.mem_iff.mpr ((mem_sortBy key).mp hb)
    exact hkey a ((mem_sortBy key).mp ha) b hb (le_antisymm hab hba)

theorem find?_orderedInsert (k : κ) (a : α) (l : List α) :
    (l.orderedInsert (fun a b => key a ≤ key b) a).find? (fun b => key b = k) =
      (a :: l).find? fun b => key b = k := by
  induction l with
  | nil => rfl
  | cons b l ih =>
    by_cases hab : key a ≤ key b
    · rw [orderedInsert_cons, if_pos hab]
    · rw [orderedInsert_cons, if_neg hab]
      by_cases hb : key b = k
      · have ha : key a ≠ k := fun ha => hab (ha.trans hb.symm).le
        simp [hb, ha]
      · simp only [find?_cons, hb, decide_false] at ih ⊢
        exact ih

/-- Sorting keeps which element of a key comes first. -/
theorem find?_sortBy (k : κ) (l : List α) :
    (sortBy key l).find? (fun b => key b = k) = l.find? fun b => key b = k := by
  induction l with
  | nil => rfl
  | cons a l ih =>
    have hinsert := find?_orderedInsert key k a (sortBy key l)
    rw [find?_cons, ih] at hinsert
    rw [find?_cons]
    exact hinsert

end SortBy

/-! ## Rows and their groups -/

section Ranking

variable {ρ ι T G N : Type*} [LinearOrder T] [LinearOrder G] [LinearOrder N]
variable (time : ρ → T) (tag : ι → G) (name : ρ → N) (group : ρ → ι)

/-- The rank of a row: time, then tag, then name. -/
def rowKey (r : ρ) : T ×ₗ G ×ₗ N :=
  toLex (time r, toLex (tag (group r), name r))

/-- The rank of a group among the rows of `rows`: greatest time, tag, greatest name. -/
structure IsGroupKey (rows : Set ρ) (i : ι) (key : T ×ₗ G ×ₗ N) : Prop where
  tag_eq : (ofLex (ofLex key).2).1 = tag i
  greatest_time : IsGreatest (time '' {r ∈ rows | group r = i}) (ofLex key).1
  greatest_name : IsGreatest (name '' {r ∈ rows | group r = i}) (ofLex (ofLex key).2).2

/-- No row that ties with `e` in time and tag lends its group a name above every name
of the group of `e`. -/
def NamesSettled (rows : Set ρ) (e : ρ) : Prop :=
  ∀ f ∈ rows, time f = time e → tag (group f) = tag (group e) →
    ∀ g ∈ rows, group g = group f → ∃ h ∈ rows, group h = group e ∧ name g ≤ name h

variable {time tag name group}

theorem lex_le_iff {a b : T ×ₗ G ×ₗ N} :
    a ≤ b ↔
      (ofLex a).1 < (ofLex b).1 ∨ (ofLex a).1 = (ofLex b).1 ∧
        ((ofLex (ofLex a).2).1 < (ofLex (ofLex b).2).1 ∨
          (ofLex (ofLex a).2).1 = (ofLex (ofLex b).2).1 ∧
            (ofLex (ofLex a).2).2 ≤ (ofLex (ofLex b).2).2) := by
  rw [Prod.Lex.le_iff, Prod.Lex.le_iff]

theorem rowKey_le_iff {r s : ρ} :
    rowKey time tag name group r ≤ rowKey time tag name group s ↔
      time r < time s ∨ time r = time s ∧
        (tag (group r) < tag (group s) ∨ tag (group r) = tag (group s) ∧ name r ≤ name s) :=
  lex_le_iff

section Winner

variable {rows : Set ρ} {e : ρ} {key : T ×ₗ G ×ₗ N}
variable
  (he : e ∈ rows)
  (hmax : ∀ f ∈ rows, rowKey time tag name group f ≤ rowKey time tag name group e)
  (hkey : IsGroupKey time tag name group rows (group e) key)

include hmax in
theorem time_le_of_greatest {f : ρ} (hf : f ∈ rows) : time f ≤ time e := by
  obtain h | ⟨h, -⟩ := rowKey_le_iff.mp (hmax f hf)
  · exact h.le
  · exact h.le

include he hmax hkey in
/-- The group of the greatest row takes its time from that row. -/
theorem groupKey_time_of_greatest : (ofLex key).1 = time e := by
  obtain ⟨⟨r, ⟨hr, -⟩, htime⟩, hbound⟩ := hkey.greatest_time
  apply le_antisymm
  · rw [← htime]
    exact time_le_of_greatest hmax hr
  · exact hbound ⟨e, ⟨he, rfl⟩, rfl⟩

include he hmax hkey in
/-- If the greatest row's group is the greatest group, the names are settled. -/
theorem namesSettled_of_groupKey_le
    (hle : ∀ f ∈ rows, ∃ k, IsGroupKey time tag name group rows (group f) k ∧ k ≤ key) :
    NamesSettled time tag name group rows e := by
  intro f hf htime htag g hg hgroup
  obtain ⟨k, hk, hle⟩ := hle f hf
  have he_time := groupKey_time_of_greatest he hmax hkey
  have hf_time : time e ≤ (ofLex k).1 :=
    htime ▸ hk.greatest_time.2 ⟨f, ⟨hf, rfl⟩, rfl⟩
  obtain ⟨⟨h, ⟨hh, hgroup_h⟩, hname⟩, -⟩ := hkey.greatest_name
  refine ⟨h, hh, hgroup_h, ?_⟩
  have hg_name : name g ≤ (ofLex (ofLex k).2).2 :=
    hk.greatest_name.2 ⟨g, ⟨hg, hgroup⟩, rfl⟩
  -- The two keys tie in time and tag, so their order is the order of the names.
  rcases lex_le_iff.mp hle with hlt | ⟨-, hlt | ⟨-, hle⟩⟩
  · exact absurd (he_time ▸ hlt) (not_lt.mpr hf_time)
  · rw [hk.tag_eq, hkey.tag_eq, htag] at hlt
    exact absurd hlt (lt_irrefl _)
  · exact hname ▸ hg_name.trans hle

include he hmax hkey in
/-- If the names are settled, the greatest row's group is the greatest group. -/
theorem groupKey_le_of_namesSettled (hsettled : NamesSettled time tag name group rows e) {i : ι}
    {k : T ×ₗ G ×ₗ N} (hk : IsGroupKey time tag name group rows i k) : k ≤ key := by
  obtain ⟨⟨latest, ⟨hlatest, hgroup⟩, htime⟩, -⟩ := hk.greatest_time
  rw [lex_le_iff, hk.tag_eq, hkey.tag_eq, groupKey_time_of_greatest he hmax hkey, ← htime, ← hgroup]
  rcases rowKey_le_iff.mp (hmax latest hlatest) with hlt | ⟨htie, hlt | ⟨htag, -⟩⟩
  · exact .inl hlt
  · exact .inr ⟨htie, .inl hlt⟩
  · refine .inr ⟨htie, .inr ⟨htag, ?_⟩⟩
    obtain ⟨⟨g, ⟨hg, hgroup_g⟩, hname⟩, -⟩ := hk.greatest_name
    obtain ⟨h, hh, hgroup_h, hle⟩ :=
      hsettled latest hlatest htie htag g hg (hgroup_g.trans hgroup.symm)
    rw [← hname]
    exact hle.trans (hkey.greatest_name.2 ⟨h, ⟨hh, hgroup_h⟩, rfl⟩)

end Winner

end Ranking

end Synch.Support
