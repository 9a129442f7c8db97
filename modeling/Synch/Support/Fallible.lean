import Mathlib.Data.List.Forall2

/-!
# Computations that may fail
-/

namespace Synch.Support

open List

universe u

variable {ε α β σ : Type*}

theorem bind_eq_ok {first : Except ε α} {second : α → Except ε β} {b : β}
    (h : first.bind second = .ok b) : ∃ a, first = .ok a ∧ second a = .ok b := by
  cases first with
  | error e => cases h
  | ok a => exact ⟨a, rfl, h⟩

theorem bind_eq_ok_iff {α β : Type u} {first : Except ε α} {second : α → Except ε β} {b : β} :
    (first >>= second) = .ok b ↔ ∃ a, first = .ok a ∧ second a = .ok b := by
  constructor
  · exact bind_eq_ok
  · rintro ⟨a, rfl, h⟩
    exact h

variable {a : α} {reason : ε} {items : List α} {s : σ}

theorem pure_eq_ok_iff {b : α} : (pure a : Except ε α) = .ok b ↔ a = b :=
  Except.ok.injEq a b ▸ Iff.rfl

theorem map_eq_ok {first : Except ε α} {change : α → β} {b : β} (h : first.map change = .ok b) :
    ∃ a, first = .ok a ∧ change a = b := by
  cases first with
  | error e => cases h
  | ok a =>
    cases h
    exact ⟨a, rfl, rfl⟩

theorem ite_eq_ok_iff {valid : Prop} [Decidable valid] {b : α} :
    (if valid then Except.ok a else Except.error reason) = .ok b ↔ valid ∧ a = b := by
  split <;> simp [*]

/-- Refuse with a reason if a condition holds. -/
def refuseIf (refused : Prop) [Decidable refused] (reason : ε) : Except ε Unit :=
  if refused then .error reason else .ok ()

@[simp] theorem refuseIf_eq_ok_iff {refused : Prop} [Decidable refused] {done : Unit} :
    refuseIf refused reason = .ok done ↔ ¬refused := by
  unfold refuseIf
  split <;> simp [*]

/-- The value, or else a refusal with a reason. -/
def orRefuse (value : Option α) (reason : ε) : Except ε α :=
  match value with
  | some a => .ok a
  | none => .error reason

@[simp] theorem orRefuse_eq_ok_iff {value : Option α} :
    orRefuse value reason = .ok a ↔ value = some a := by
  cases value <;> simp [orRefuse]

/-- The same computation, with its reason for failing reworded. -/
def reword {ε' : Type*} (change : ε → ε') (action : Except ε α) : Except ε' α :=
  match action with
  | .ok a => .ok a
  | .error reason => .error (change reason)

@[simp] theorem reword_eq_ok_iff {ε' : Type*} {change : ε → ε'} {action : Except ε α} :
    reword change action = .ok a ↔ action = .ok a := by
  cases action <;> simp [reword]

/-- A loop of checks passes exactly if each check does. -/
theorem forM_eq_ok_iff {check : α → Except ε PUnit} :
    items.forM check = .ok ⟨⟩ ↔ ∀ a ∈ items, check a = .ok ⟨⟩ := by
  induction items with
  | nil => simp [List.forM, pure, Except.pure]
  | cons a items ih =>
    change (check a >>= fun _ => items.forM check) = _ ↔ _
    rw [bind_eq_ok_iff, forall_mem_cons, ← ih]
    constructor
    · rintro ⟨_, ha, hrest⟩
      exact ⟨ha, hrest⟩
    · rintro ⟨ha, hrest⟩
      exact ⟨⟨⟩, ha, hrest⟩

/-- Each value a loop collects comes from one of the items. -/
theorem exists_of_mem_mapM {α β : Type u} {f : α → Except ε β} {items : List α} {out : List β}
    (h : items.mapM f = .ok out) {b : β} (hb : b ∈ out) : ∃ a ∈ items, f a = .ok b := by
  induction items generalizing out with
  | nil =>
    cases h
    cases hb
  | cons a items ih =>
    rw [mapM_cons, bind_eq_ok_iff] at h
    obtain ⟨first, hfirst, hrest⟩ := h
    rw [bind_eq_ok_iff] at hrest
    obtain ⟨others, hothers, hdone⟩ := hrest
    cases hdone
    obtain rfl | hmem := mem_cons.mp hb
    · exact ⟨a, mem_cons_self, hfirst⟩
    · obtain ⟨found, hfound, hvalue⟩ := ih hothers hmem
      exact ⟨found, mem_cons_of_mem _ hfound, hvalue⟩

/-- A loop collects the value of each item. -/
theorem mapM_eq_ok_iff {α β : Type u} {f : α → Except ε β} {items : List α} {out : List β} :
    items.mapM f = .ok out ↔ List.Forall₂ (fun a b => f a = .ok b) items out := by
  induction items generalizing out with
  | nil =>
    rw [mapM_nil, pure_eq_ok_iff, forall₂_nil_left_iff]
    exact eq_comm
  | cons a items ih =>
    rw [mapM_cons, bind_eq_ok_iff, forall₂_cons_left_iff]
    constructor
    · rintro ⟨b, hb, hrest⟩
      obtain ⟨rest, hitems, hout⟩ := bind_eq_ok_iff.mp hrest
      exact ⟨b, rest, hb, ih.mp hitems, (pure_eq_ok_iff.mp hout).symm⟩
    · rintro ⟨b, rest, hb, hitems, rfl⟩
      exact ⟨b, hb, bind_eq_ok_iff.mpr ⟨rest, ih.mpr hitems, rfl⟩⟩

/-- What every step of a loop keeps holds after it. -/
theorem foldlM_invariant {step : σ → α → Except ε σ} (Inv : σ → Prop)
    (hstep : ∀ s a s', a ∈ items → Inv s → step s a = .ok s' → Inv s') {finish : σ} (hs : Inv s)
    (hrun : items.foldlM step s = .ok finish) : Inv finish := by
  induction items generalizing s with
  | nil =>
    cases hrun
    exact hs
  | cons a items ih =>
    rw [foldlM_cons] at hrun
    obtain ⟨next, hnext, hrest⟩ := bind_eq_ok hrun
    exact ih (fun s a s' ha => hstep s a s' (mem_cons_of_mem _ ha))
      (hstep s a next mem_cons_self hs hnext) hrest

/-- The same for a loop that cannot fail. -/
theorem foldl_invariant {step : σ → α → σ} (Inv : σ → Prop)
    (hstep : ∀ s a, a ∈ items → Inv s → Inv (step s a)) (hs : Inv s) :
    Inv (items.foldl step s) := by
  induction items generalizing s with
  | nil => exact hs
  | cons a items ih =>
    exact ih (fun s a ha => hstep s a (mem_cons_of_mem _ ha)) (hstep s a mem_cons_self hs)

/-- A loop whose body never fails, with what holds while some of the items are still ahead. -/
theorem exists_foldlM_ok {step : σ → α → Except ε σ} (Holds : List α → σ → Prop)
    (hstep : ∀ a rest s, Holds (a :: rest) s → ∃ next, step s a = .ok next ∧ Holds rest next)
    (hs : Holds items s) : ∃ finish, items.foldlM step s = .ok finish ∧ Holds [] finish := by
  induction items generalizing s with
  | nil => exact ⟨s, rfl, hs⟩
  | cons a items ih =>
    obtain ⟨next, hnext, hrest⟩ := hstep a items s hs
    obtain ⟨finish, hfinish, hdone⟩ := ih hrest
    refine ⟨finish, ?_, hdone⟩
    rw [foldlM_cons, hnext]
    exact hfinish

end Synch.Support
