import Mathlib.Data.List.Forall2

/-!
# Computations over a state that may fail

A task changes a state and fails or returns a value; what it did to the state
before it failed stays.  `Keeps` is what holds of every run, `Returns` is one
run.
-/

namespace Synch.Support

open List

/-- A computation over a state of type `σ` that may fail with an `ε`. -/
abbrev Task (ε σ α : Type) := ExceptT ε (StateM σ) α

section Task

variable {ε σ α β : Type}

def Task.outcome (task : Task ε σ α) (s : σ) : Except ε α × σ :=
  task s

theorem outcome_bind (task : Task ε σ α) (rest : α → Task ε σ β) (s : σ) :
    Task.outcome (task >>= rest) s =
      match task.outcome s with
      | (.ok a, next) => (rest a).outcome next
      | (.error reason, next) => (.error reason, next) := by
  change (ExceptT.bindCont rest (task.outcome s).1).run (task.outcome s).2 = _
  rcases task.outcome s with ⟨reason | a, next⟩ <;> rfl

/-- Refuse with a reason if a condition holds. -/
def Task.refuseIf (refused : Prop) [Decidable refused] (reason : ε) : Task ε σ Unit :=
  if refused then throw reason else pure ()

/-- The value, or a refusal if there is none. -/
def Task.orRefuse (value : Option α) (reason : ε) : Task ε σ α :=
  match value with
  | some a => pure a
  | none => throw reason

/-- The outcome of a computation that uses no state. -/
def Task.ofExcept (result : Except ε α) : Task ε σ α :=
  fun s => (result, s)

def Task.read (look : σ → α) : Task ε σ α :=
  fun s => (.ok (look s), s)

def Task.change (update : σ → σ) : Task ε σ Unit :=
  fun s => (.ok (), update s)

/-! ## What every run keeps -/

/-- Every run keeps the invariant, also one that fails, and returns a value with
the postcondition. -/
def Keeps (inv : σ → Prop) (task : Task ε σ α) (post : α → Prop) : Prop :=
  ∀ s, inv s → inv (task.outcome s).2 ∧ ∀ a, (task.outcome s).1 = .ok a → post a

variable {inv : σ → Prop} {task : Task ε σ α} {post post' : α → Prop}

theorem Keeps.mono (h : Keeps inv task post) (himp : ∀ a, post a → post' a) :
    Keeps inv task post' :=
  fun s hs => ⟨(h s hs).1, fun a ha => himp a ((h s hs).2 a ha)⟩

variable {a : α} {reason : ε} {rest : α → Task ε σ β} {refused : Prop} {value : Option α}
    {items : List β} {act : β → Task ε σ α} {s : σ}

theorem keeps_pure (h : post a) : Keeps inv (pure a : Task ε σ α) post := by
  intro s hs
  refine ⟨hs, ?_⟩
  intro a' ha'
  cases ha'
  exact h

theorem keeps_throw : Keeps inv (throw reason : Task ε σ α) post :=
  fun _ hs => ⟨hs, fun _ h => nomatch h⟩

theorem Keeps.bind {result : β → Prop} (h : Keeps inv task post)
    (hrest : ∀ a, post a → Keeps inv (rest a) result) : Keeps inv (task >>= rest) result := by
  intro s hs
  obtain ⟨hinv, hpost⟩ := h s hs
  rw [outcome_bind]
  rcases hout : task.outcome s with ⟨reason | a, next⟩
  · rw [hout] at hinv
    exact ⟨hinv, fun b hb => nomatch hb⟩
  · rw [hout] at hinv hpost
    exact hrest a (hpost a rfl) next hinv

theorem keeps_refuseIf [Decidable refused] :
    Keeps inv (Task.refuseIf refused reason) fun _ => ¬refused := by
  unfold Task.refuseIf
  split
  · exact keeps_throw
  · exact keeps_pure ‹_›

theorem keeps_orRefuse : Keeps inv (Task.orRefuse value reason) fun a => value = some a := by
  cases value with
  | none => exact keeps_throw
  | some a => exact keeps_pure rfl

theorem keeps_read {look : σ → α} (h : ∀ s, inv s → post (look s)) :
    Keeps inv (Task.read look : Task ε σ α) post := by
  intro s hs
  refine ⟨hs, ?_⟩
  intro a ha
  cases ha
  exact h s hs

theorem keeps_change {update : σ → σ} (h : ∀ s, inv s → inv (update s)) :
    Keeps inv (Task.change update : Task ε σ Unit) fun _ => True :=
  fun s hs => ⟨h s hs, fun _ _ => trivial⟩

theorem keeps_mapM {each : β → α → Prop} (h : ∀ item ∈ items, Keeps inv (act item) (each item)) :
    Keeps inv (items.mapM act) fun values => List.Forall₂ each items values := by
  induction items with
  | nil =>
    rw [mapM_nil]
    exact keeps_pure List.Forall₂.nil
  | cons item items ih =>
    rw [mapM_cons]
    apply (h item mem_cons_self).bind
    intro value hvalue
    apply (ih fun item hitem => h item (mem_cons_of_mem _ hitem)).bind
    intro values hvalues
    exact keeps_pure (List.Forall₂.cons hvalue hvalues)

theorem keeps_forM {act : β → Task ε σ PUnit}
    (h : ∀ item ∈ items, Keeps inv (act item) fun _ => True) :
    Keeps inv (items.forM act) fun _ => True := by
  induction items with
  | nil => exact keeps_pure trivial
  | cons item items ih =>
    apply (h item mem_cons_self).bind
    intro _ _
    exact ih fun item hitem => h item (mem_cons_of_mem _ hitem)

/-! ## One run -/

/-- From `s` the task returns `a` and leaves `next`. -/
def Returns (task : Task ε σ α) (s : σ) (a : α) (next : σ) : Prop :=
  task.outcome s = (.ok a, next)

theorem returns_pure : Returns (pure a : Task ε σ α) s a s := rfl

theorem Returns.bind {middle next : σ} {b : β} (h : Returns task s a middle)
    (hrest : Returns (rest a) middle b next) : Returns (task >>= rest) s b next := by
  have h' : task.outcome s = (.ok a, middle) := h
  change Task.outcome (task >>= rest) s = _
  rw [outcome_bind, h']
  exact hrest

theorem returns_refuseIf [Decidable refused] (h : ¬refused) :
    Returns (Task.refuseIf refused reason) s () s := by
  rw [Task.refuseIf, if_neg h]
  exact returns_pure

theorem returns_orRefuse (h : value = some a) : Returns (Task.orRefuse value reason) s a s := by
  rw [h]
  exact returns_pure

theorem returns_read {look : σ → α} : Returns (Task.read look : Task ε σ α) s (look s) s := rfl

theorem returns_change {update : σ → σ} :
    Returns (Task.change update : Task ε σ Unit) s () (update s) :=
  rfl

theorem returns_mapM {value : β → α} (h : ∀ item ∈ items, Returns (act item) s (value item) s) :
    Returns (items.mapM act) s (items.map value) s := by
  induction items with
  | nil =>
    rw [mapM_nil]
    exact returns_pure
  | cons item items ih =>
    rw [mapM_cons]
    apply (h item mem_cons_self).bind
    apply (ih fun item hitem => h item (mem_cons_of_mem _ hitem)).bind
    exact returns_pure

/-! ## What every run returns -/

/-- From every state the task returns `a`. -/
def Answers (task : Task ε σ α) (a : α) : Prop :=
  ∀ s, ∃ next, Returns task s a next

theorem answers_pure : Answers (pure a : Task ε σ α) a :=
  fun s => ⟨s, returns_pure⟩

theorem Answers.bind {b : β} (h : Answers task a) (hrest : Answers (rest a) b) :
    Answers (task >>= rest) b := by
  intro s
  obtain ⟨middle, hmiddle⟩ := h s
  obtain ⟨next, hnext⟩ := hrest middle
  exact ⟨next, hmiddle.bind hnext⟩

theorem answers_refuseIf [Decidable refused] (h : ¬refused) :
    Answers (Task.refuseIf refused reason : Task ε σ Unit) () :=
  fun s => ⟨s, returns_refuseIf h⟩

theorem answers_orRefuse (h : value = some a) :
    Answers (Task.orRefuse value reason : Task ε σ α) a :=
  fun s => ⟨s, returns_orRefuse h⟩

theorem answers_mapM {value : β → α} (h : ∀ item ∈ items, Answers (act item) (value item)) :
    Answers (items.mapM act) (items.map value) := by
  induction items with
  | nil =>
    rw [mapM_nil]
    exact answers_pure
  | cons item items ih =>
    rw [mapM_cons]
    apply (h item mem_cons_self).bind
    apply (ih fun item hitem => h item (mem_cons_of_mem _ hitem)).bind
    exact answers_pure

end Task

end Synch.Support
