import Mathlib.Data.List.Basic

/-!
# Runs of partial transition systems

A transition system is given by an executable step function that is undefined
where an event is not enabled.  A run folds the step function over a list of
events.  The rules below carry an invariant along a run, either for every
event or only for the events that meet a guard in the state they start from.
-/

namespace Synch.Support

variable {σ ε : Type*}

/-- Execute a list of events, failing at the first one that is not enabled. -/
def run (step : σ → ε → Option σ) : σ → List ε → Option σ
  | s, [] => some s
  | s, e :: es => (step s e).bind fun next => run step next es

/-- The guard of a step that was taken, and where it led. -/
theorem guard_eq_some {p : Prop} [Decidable p] {s next : σ}
    (h : (if p then some s else none) = some next) : p ∧ s = next := by
  rwa [Option.ite_none_right_eq_some, Option.some.injEq] at h

/-- Every event of the run from `s` meets `guard` in the state it starts from. -/
def RunMeets
    (step : σ → ε → Option σ) (guard : σ → ε → Prop) : σ → List ε → Prop
  | _, [] => True
  | s, e :: es =>
    guard s e ∧ ∀ next, step s e = some next → RunMeets step guard next es

@[simp]
theorem run_nil (step : σ → ε → Option σ) (s : σ) : run step s [] = some s :=
  rfl

variable {step : σ → ε → Option σ} {s finish : σ} {e : ε} {es : List ε} {guard : σ → ε → Prop}

theorem run_cons_eq_some :
    run step s (e :: es) = some finish ↔
      ∃ next, step s e = some next ∧ run step next es = some finish := by
  simp [run, Option.bind_eq_some_iff]

theorem runMeets_cons_of_none (hstep : step s e = none) :
    RunMeets step guard s (e :: es) ↔ guard s e := by
  simp [RunMeets, hstep]

theorem runMeets_cons_of_some {next : σ} (hstep : step s e = some next) :
    RunMeets step guard s (e :: es) ↔ guard s e ∧ RunMeets step guard next es := by
  simp [RunMeets, hstep]

instance decidableRunMeets
    (step : σ → ε → Option σ) (guard : σ → ε → Prop)
    [∀ s e, Decidable (guard s e)] :
    ∀ (s : σ) (es : List ε), Decidable (RunMeets step guard s es)
  | _, [] => isTrue trivial
  | s, e :: es =>
    match hstep : step s e with
    | none => decidable_of_iff _ (runMeets_cons_of_none hstep).symm
    | some next =>
      have := decidableRunMeets step guard next es
      decidable_of_iff _ (runMeets_cons_of_some hstep).symm

/-- A run over two event lists is guarded when both of its parts are. -/
theorem runMeets_append {middle : σ} {es' : List ε} (hrun : run step s es = some middle) :
    RunMeets step guard s (es ++ es') ↔
      RunMeets step guard s es ∧ RunMeets step guard middle es' := by
  induction es generalizing s with
  | nil =>
    cases hrun
    simp [RunMeets]
  | cons e es ih =>
    obtain ⟨next, hstep, hrest⟩ := run_cons_eq_some.mp hrun
    rw [List.cons_append, runMeets_cons_of_some hstep, runMeets_cons_of_some hstep, ih hrest,
      and_assoc]

/-- An invariant kept by every guarded step holds where a guarded run ends. -/
theorem run_invariant_of_meets (Inv : σ → Prop)
    (hstep : ∀ s e next, Inv s → guard s e → step s e = some next → Inv next) (hs : Inv s)
    (hmeets : RunMeets step guard s es) (hrun : run step s es = some finish) : Inv finish := by
  induction es generalizing s with
  | nil =>
    simp only [run_nil, Option.some.injEq] at hrun
    exact hrun ▸ hs
  | cons e es ih =>
    obtain ⟨next, hnext, hrest⟩ := run_cons_eq_some.mp hrun
    exact ih (hstep s e next hs hmeets.1 hnext) (hmeets.2 next hnext) hrest

/-- An invariant kept by every step holds where a run ends. -/
theorem run_invariant (Inv : σ → Prop) (hstep : ∀ s e next, Inv s → step s e = some next → Inv next)
    (hs : Inv s) (hrun : run step s es = some finish) : Inv finish := by
  induction es generalizing s with
  | nil =>
    simp only [run_nil, Option.some.injEq] at hrun
    exact hrun ▸ hs
  | cons e es ih =>
    obtain ⟨next, hnext, hrest⟩ := run_cons_eq_some.mp hrun
    exact ih (hstep s e next hs hnext) hrest

end Synch.Support
