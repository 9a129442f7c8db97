import Mathlib.Data.List.Basic
import Mathlib.Order.Lattice

/-!
# A cycle through an ordered list

Each element of a list points to the next and the last to the first.  If the list
ascends, the pointer of the greatest element below a missing key passes over it.
-/

namespace Synch.Support

open List

variable {α : Type*}

/-- Each element with the one after it, and the last with the first. -/
def successors : List α → List (α × α)
  | [] => []
  | first :: rest => (first :: rest).zip (rest ++ [first])

theorem map_fst_successors (l : List α) : (successors l).map Prod.fst = l := by
  cases l with
  | nil => rfl
  | cons first rest => exact map_fst_zip (by simp)

variable {l : List α} {a b : α}

theorem exists_mem_successors (h : a ∈ l) : ∃ b, (a, b) ∈ successors l := by
  rw [← map_fst_successors l, mem_map] at h
  obtain ⟨⟨_, b⟩, hmem, rfl⟩ := h
  exact ⟨b, hmem⟩

theorem mem_of_mem_successors (h : (a, b) ∈ successors l) : a ∈ l ∧ b ∈ l := by
  cases l with
  | nil => cases h
  | cons first rest =>
    obtain ⟨ha, hb⟩ := of_mem_zip h
    refine ⟨ha, ?_⟩
    obtain hb | hb := mem_append.mp hb
    · exact mem_cons_of_mem _ hb
    · rw [mem_singleton.mp hb]
      exact mem_cons_self

theorem zip_rotate_cases {x first : α} {rest : List α}
    (h : (a, b) ∈ (x :: rest).zip (rest ++ [first])) :
    (∃ front back, x :: rest = front ++ a :: b :: back) ∨ ∃ front, x :: rest = front ++ [a] := by
  induction rest generalizing x with
  | nil =>
    simp only [nil_append, zip_cons_cons, zip_nil_left, mem_singleton, Prod.mk.injEq] at h
    exact .inr ⟨[], by rw [h.1]; rfl⟩
  | cons y rest ih =>
    rw [cons_append, zip_cons_cons, mem_cons, Prod.mk.injEq] at h
    obtain ⟨rfl, rfl⟩ | h := h
    · exact .inl ⟨[], rest, rfl⟩
    · obtain ⟨front, back, hlist⟩ | ⟨front, hlist⟩ := ih h
      · exact .inl ⟨x :: front, back, by rw [hlist]; rfl⟩
      · exact .inr ⟨x :: front, by rw [hlist]; rfl⟩

/-- A pointer leads to the next element, or leads from the last one. -/
theorem successors_cases (h : (a, b) ∈ successors l) :
    (∃ front back, l = front ++ a :: b :: back) ∨ ∃ front, l = front ++ [a] := by
  cases l with
  | nil => cases h
  | cons first rest => exact zip_rotate_cases h

variable {κ : Type*} [LinearOrder κ] (key : α → κ)

/-- A pointer passes over a key: the key lies after the element it leads from and
before the one it leads to, or the pointer is the one back to the start. -/
def Covers (a b : α) (x : κ) : Prop :=
  key a < x ∧ (x < key b ∨ key b ≤ key a)

/-- The pointer of the greatest element below a missing key passes over it. -/
theorem covers_of_greatest {x : κ} (hpair : (a, b) ∈ successors l) (ha : key a < x)
    (hgreatest : ∀ c ∈ l, key c < x → key c ≤ key a) (hmissing : ∀ c ∈ l, key c ≠ x) :
    Covers key a b x := by
  have hb := (mem_of_mem_successors hpair).2
  refine ⟨ha, ?_⟩
  by_cases hback : key b ≤ key a
  · exact .inr hback
  · have hle : x ≤ key b := not_lt.mp fun hlt => hback (hgreatest b hb hlt)
    exact .inl (lt_of_le_of_ne hle (hmissing b hb).symm)

/-- In an ascending list a pointer leads to the least element above its own. -/
theorem le_of_mem_successors (hl : l.Pairwise fun a b => key a < key b) {c : α}
    (hpair : (a, b) ∈ successors l) (hc : c ∈ l) (hac : key a < key c) :
    key a < key b ∧ key b ≤ key c := by
  obtain ⟨front, back, rfl⟩ | ⟨front, rfl⟩ := successors_cases hpair
  · obtain ⟨-, hback, hcross⟩ := pairwise_append.mp hl
    obtain ⟨ha, hrest⟩ := pairwise_cons.mp hback
    obtain ⟨hb, -⟩ := pairwise_cons.mp hrest
    refine ⟨ha b mem_cons_self, ?_⟩
    obtain hc | hc := mem_append.mp hc
    · exact absurd hac (hcross c hc a mem_cons_self).not_gt
    · obtain rfl | hc := mem_cons.mp hc
      · exact absurd hac (lt_irrefl _)
      · obtain rfl | hc := mem_cons.mp hc
        · exact le_rfl
        · exact (hb c hc).le
  · -- the element above would stand after the last one
    obtain ⟨-, -, hcross⟩ := pairwise_append.mp hl
    obtain hc | hc := mem_append.mp hc
    · exact absurd hac (hcross c hc a mem_cons_self).not_gt
    · rw [mem_singleton.mp hc] at hac
      exact absurd hac (lt_irrefl _)

end Synch.Support
