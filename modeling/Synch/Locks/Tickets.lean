import Synch.Locks.Clock

/-!
# Monotone tickets over runs of one manager

The system runs every operation of a lock manager, clean restarts included, and
remembers which tickets were folded in and which were issued.  Tickets are
monotone in every run whose increments do not pass the greatest word, whose
saves do not cross `2 ^ 63`, and whose restarts find the clock saved.
-/

namespace Synch.Locks

open List Synch.Support

variable {Origin : Type} [LinearOrder Origin]

inductive Stamp where
  | folded (lamport : UInt64)
  | issued (lamport : UInt64)
deriving DecidableEq, Repr

def Stamp.lamport : Stamp → UInt64
  | folded lamport => lamport
  | issued lamport => lamport

/-- A later entry is above an earlier one if it is an issued ticket. -/
def Stamp.Precedes (earlier later : Stamp) : Prop :=
  match later with
  | folded _ => True
  | issued lamport => earlier.lamport < lamport

instance : DecidableRel Stamp.Precedes := fun earlier later =>
  match later with
  | .folded _ => inferInstanceAs (Decidable True)
  | .issued lamport => inferInstanceAs (Decidable (earlier.lamport < lamport))

/-- Every issued ticket is above everything issued or folded in before it. -/
def TicketsMonotone (history : List Stamp) : Prop :=
  history.Pairwise Stamp.Precedes

instance (history : List Stamp) : Decidable (TicketsMonotone history) :=
  inferInstanceAs (Decidable (List.Pairwise _ _))

/-- A manager, the clock values its running saves picked up, and the history. -/
structure ClockState (Origin : Type) [LinearOrder Origin] where
  manager : Manager Origin
  saving : List UInt64 := []
  history : List Stamp := []

inductive ClockEvent (Origin : Type) [LinearOrder Origin] where
  | record (writers : List Origin) (lock : LockName) (claim : Claim Origin)
      (renewal : Bool) (now : Instant)
  | recordEnd (writers : List Origin) (lock : LockName) (id : ClaimId Origin)
      (reason : EndReason) (watermark : Option (Watermark Origin)) (now : Instant)
  | beginAttempt (request : LockRequest) (nonce : UInt64) (now : Instant) (wall : Int)
  | concludeAttempt (lock : LockName) (claim : Claim Origin)
      (gathered : Gathered Origin) (deadline now : Instant)
  | startRenewal (lock : LockName) (now : Instant)
  | finishRenewal (lock : LockName) (claim : Claim Origin)
      (gathered : Gathered Origin) (sent now : Instant)
  | endRelease (lock : LockName) (id : ClaimId Origin)
      (watermark : Option (Watermark Origin)) (now : Instant)
  | lose (lock : LockName) (id : ClaimId Origin) (lost : Lost Origin) (now : Instant)
  | renew (lock : LockName) (token : ClaimId Origin) (ttl : Option Duration)
      (payload : Option (List UInt8)) (now : Instant)
  | sweep (now : Instant)
  | putHold (lock : LockName) (now : Instant) (wall : Int)
  | forgetHold (lock : LockName) (id : ClaimId Origin)
  | beginSave
  | finishSave (clock : UInt64)
  | restart (now : Instant) (wall : Int)

namespace ClockState

/-- Continue with a manager that folded the given tickets in. -/
def fold
    (s : ClockState Origin) (manager : Manager Origin) (lamports : List UInt64) :
    ClockState Origin :=
  { s with manager := manager, history := s.history ++ lamports.map .folded }

/-- One operation. -/
def step [ToString Origin]
    (s : ClockState Origin) : ClockEvent Origin → Option (ClockState Origin)
  | .record writers lock claim renewal now =>
    some (s.fold (s.manager.record writers lock claim renewal now).1
      (if s.manager.hears writers claim then [claim.id.ticket.lamport] else []))
  | .recordEnd writers lock id reason watermark now =>
    some (s.fold (s.manager.recordEnd writers lock id reason watermark now).1 [])
  | .beginAttempt request nonce now wall =>
    let begun := s.manager.beginAttempt request nonce now wall
    let folded := s.fold begun.1 (s.manager.table.entry request.lock).tickets
    some { folded with
      history := folded.history ++ [.issued begun.2.id.ticket.lamport] }
  | .concludeAttempt lock claim gathered deadline now =>
    some (s.fold (s.manager.concludeAttempt lock claim gathered deadline now).1 gathered.tickets)
  | .startRenewal lock now =>
    (s.manager.startRenewal lock now).map fun started => s.fold started.1 []
  | .finishRenewal lock claim gathered sent now =>
    some (s.fold (s.manager.finishRenewal lock claim gathered sent now).1 gathered.tickets)
  | .endRelease lock id watermark now =>
    some (s.fold (s.manager.endRelease lock id watermark now) [])
  | .lose lock id lost now =>
    some (s.fold (s.manager.lose lock id lost now) [])
  | .renew lock token ttl payload now =>
    (s.manager.renew lock token ttl payload now).map fun renewed => s.fold renewed []
  | .sweep now =>
    some (s.fold { s.manager with table := s.manager.table.sweep now } [])
  | .putHold lock now wall =>
    ((s.manager.table.entry lock).own.bind fun own =>
      s.manager.holdRow lock own now wall).map fun row =>
        s.fold (s.manager.putHold row) []
  | .forgetHold lock id => some (s.fold (s.manager.forgetHold lock id) [])
  | .beginSave =>
    s.manager.pendingSave.map fun clock => { s with saving := clock :: s.saving }
  | .finishSave clock =>
    if clock ∈ s.saving then
      some { s with
        manager := s.manager.finishSave clock
        saving := s.saving.erase clock }
    else
      none
  | .restart now wall =>
    some { s with manager := s.manager.restore now wall, saving := [] }

/-- The condition each step has to meet: an attempt finds room above the
tickets it heard, a save stays on its side of `2 ^ 63`, and a restart finds
the clock saved. -/
def Sound (s : ClockState Origin) : ClockEvent Origin → Prop
  | .beginAttempt request _ _ _ =>
    (max s.manager.table.clock (s.manager.table.entry request.lock).heard).toNat + 1 < 2 ^ 64
  | .finishSave clock => Manager.SaveKeepsSide s.manager.clockRow clock
  | .restart _ _ => s.manager.table.clock ≤ s.manager.table.saved
  | _ => True

instance (s : ClockState Origin) :
    (event : ClockEvent Origin) → Decidable (s.Sound event)
  | .beginAttempt _ _ _ _ => inferInstanceAs (Decidable (_ < _))
  | .finishSave clock =>
    inferInstanceAs (Decidable (Manager.SaveKeepsSide s.manager.clockRow clock))
  | .restart _ _ => inferInstanceAs (Decidable (_ ≤ _))
  | .record _ _ _ _ _ | .recordEnd _ _ _ _ _ _ | .concludeAttempt _ _ _ _ _
  | .startRenewal _ _ | .finishRenewal _ _ _ _ _ | .endRelease _ _ _ _
  | .lose _ _ _ _ | .renew _ _ _ _ _ | .sweep _ | .putHold _ _ _
  | .forgetHold _ _ | .beginSave => isTrue trivial

structure Inv (s : ClockState Origin) : Prop where
  monotone : TicketsMonotone s.history
  below : ∀ stamp ∈ s.history, stamp.lamport ≤ s.manager.table.clock
  stored : s.manager.table.saved ≤ Manager.lockClock s.manager.clockRow

end ClockState

theorem TicketsMonotone.append_folded {history : List Stamp} (h : TicketsMonotone history)
    (lamports : List UInt64) : TicketsMonotone (history ++ lamports.map .folded) := by
  refine pairwise_append.mpr ⟨h, ?_, ?_⟩
  · rw [pairwise_map]
    exact pairwise_of_forall fun _ _ => trivial
  · intro earlier _ later hlater
    obtain ⟨folded, -, rfl⟩ := mem_map.mp hlater
    trivial

theorem TicketsMonotone.append_issued {history : List Stamp} (h : TicketsMonotone history)
    {lamport : UInt64} (habove : ∀ stamp ∈ history, stamp.lamport < lamport) :
    TicketsMonotone (history ++ [.issued lamport]) := by
  refine pairwise_append.mpr ⟨h, pairwise_singleton _ _, ?_⟩
  intro earlier hearlier later hlater
  rw [mem_singleton.mp hlater]
  exact habove earlier hearlier

namespace ClockState

variable {s : ClockState Origin} {manager : Manager Origin}

/-- Folding tickets in keeps the invariant when the clock rises to them and the
store keeps covering what is known saved. -/
theorem Inv.fold (h : s.Inv) {lamports : List UInt64}
    (hclock : s.manager.table.clock ≤ manager.table.clock)
    (hlamports : ∀ lamport ∈ lamports, lamport ≤ manager.table.clock)
    (hstored : manager.table.saved ≤ Manager.lockClock manager.clockRow) :
    (s.fold manager lamports).Inv where
  monotone := h.monotone.append_folded lamports
  below stamp hstamp := by
    rcases mem_append.mp hstamp with hold | hnew
    · exact UInt64.le_trans (h.below stamp hold) hclock
    · obtain ⟨lamport, hlamport, rfl⟩ := mem_map.mp hnew
      exact hlamports lamport hlamport
  stored := hstored

theorem Inv.fold_same (h : s.Inv) (htiming : manager.timing = s.manager.timing) :
    (s.fold manager []).Inv := by
  simp only [Manager.timing, Prod.mk.injEq] at htiming
  obtain ⟨hclock, hsaved, hrow⟩ := htiming
  refine h.fold (hclock ▸ UInt64.le_refl _) (by simp) ?_
  rw [hsaved, hrow]
  exact h.stored

theorem Inv.fold_heard (h : s.Inv) {lamports : List UInt64} {clock : UInt64}
    (htiming : manager.timing = (clock, s.manager.table.saved, s.manager.clockRow))
    (hclock : s.manager.table.clock ≤ clock) (hlamports : ∀ lamport ∈ lamports, lamport ≤ clock) :
    (s.fold manager lamports).Inv := by
  simp only [Manager.timing, Prod.mk.injEq] at htiming
  obtain ⟨rfl, hsaved, hrow⟩ := htiming
  refine h.fold hclock hlamports ?_
  rw [hsaved, hrow]
  exact h.stored

/-- An attempt with room above what it heard issues a greater ticket. -/
theorem Inv.beginAttempt (h : s.Inv) [ToString Origin] {request : LockRequest} {nonce : UInt64}
    {now : Instant} {wall : Int} (hroom : s.Sound (.beginAttempt request nonce now wall))
    {next : ClockState Origin} (hstep : s.step (.beginAttempt request nonce now wall) = some next) :
    next.Inv := by
  cases hstep
  set top := max s.manager.table.clock (s.manager.table.entry request.lock).heard
  have hlt : top < top + 1 := lt_add_one_of_ne_last hroom
  have hclock : s.manager.table.clock ≤ top + 1 :=
    UInt64.le_of_lt (UInt64.lt_of_le_of_lt (le_max_left_word _ _) hlt)
  have hheard : ∀ lamport ∈ (s.manager.table.entry request.lock).tickets,
      lamport < top + 1 := fun lamport hlamport =>
    UInt64.lt_of_le_of_lt
      (UInt64.le_trans (Entry.le_heard_of_mem_tickets hlamport) (le_max_right_word _ _)) hlt
  have hfold : (s.fold (s.manager.beginAttempt request nonce now wall).1
      (s.manager.table.entry request.lock).tickets).Inv := by
    refine h.fold_heard rfl hclock ?_
    intro lamport hlamport
    exact UInt64.le_of_lt (hheard lamport hlamport)
  refine ⟨hfold.monotone.append_issued ?_, ?_, hfold.stored⟩
  · intro stamp hstamp
    rcases mem_append.mp hstamp with hold | hnew
    · exact UInt64.lt_of_le_of_lt (UInt64.le_trans (h.below stamp hold) (le_max_left_word _ _)) hlt
    · obtain ⟨lamport, hlamport, rfl⟩ := mem_map.mp hnew
      exact hheard lamport hlamport
  · intro stamp hstamp
    rcases mem_append.mp hstamp with hold | hnew
    · exact hfold.below stamp hold
    · rw [mem_singleton.mp hnew]
      exact UInt64.le_refl _

/-- A save on one side of `2 ^ 63` keeps the store above what is known saved. -/
theorem Inv.finishSave (h : s.Inv) {clock : UInt64}
    (hside : Manager.SaveKeepsSide s.manager.clockRow clock) (saving : List UInt64) :
    ({ s with manager := s.manager.finishSave clock, saving := saving } :
      ClockState Origin).Inv where
  monotone := h.monotone
  below := h.below
  stored := by
    change max s.manager.table.saved clock ≤
      Manager.lockClock (Manager.raiseLockClock s.manager.clockRow clock)
    rw [Manager.lockClock_raiseLockClock hside]
    exact max_le_word (UInt64.le_trans h.stored (le_max_left_word _ _)) (le_max_right_word _ _)

/-- A restart that finds the clock saved reloads at least that clock. -/
theorem Inv.restart (h : s.Inv) {now : Instant} {wall : Int}
    (hsaved : s.manager.table.clock ≤ s.manager.table.saved) :
    ({ s with manager := s.manager.restore now wall, saving := [] } : ClockState Origin).Inv := by
  obtain ⟨hclock, hreloaded, hrow⟩ := s.manager.restore_timing now wall
  refine ⟨h.monotone, ?_, ?_⟩
  · intro stamp hstamp
    have hstored := UInt64.le_trans (UInt64.le_trans (h.below stamp hstamp) hsaved) h.stored
    exact UInt64.le_trans hstored hclock
  · rw [hrow]
    exact hreloaded

theorem Inv.step [ToString Origin] {next : ClockState Origin} {event : ClockEvent Origin}
    (h : s.Inv) (hsound : s.Sound event) (hstep : s.step event = some next) : next.Inv := by
  cases event with
  | record writers lock claim renewal now =>
    cases hstep
    have htiming := s.manager.record_timing writers lock claim renewal now
    by_cases hhears : s.manager.hears writers claim
    · rw [if_pos hhears] at htiming ⊢
      exact h.fold_heard htiming (le_max_left_word _ _) (by simpa using le_max_right_word _ _)
    · rw [if_neg hhears] at htiming ⊢
      exact h.fold_same htiming
  | recordEnd writers lock id reason watermark now =>
    cases hstep
    exact h.fold_same (s.manager.recordEnd_timing writers lock id reason watermark now)
  | beginAttempt request nonce now wall => exact h.beginAttempt hsound hstep
  | concludeAttempt lock claim gathered deadline now =>
    cases hstep
    exact h.fold_heard
      (s.manager.concludeAttempt_timing lock claim gathered deadline now)
      (s.manager.table.le_clock_hearAll _)
      fun _ hmem => s.manager.table.le_clock_hearAll_of_mem hmem
  | startRenewal lock now =>
    obtain ⟨started, hstarted, rfl⟩ := Option.map_eq_some_iff.mp hstep
    exact h.fold_same (Manager.startRenewal_timing hstarted)
  | finishRenewal lock claim gathered sent now =>
    cases hstep
    exact h.fold_heard
      (s.manager.finishRenewal_timing lock claim gathered sent now)
      (s.manager.table.le_clock_hearAll _)
      fun _ hmem => s.manager.table.le_clock_hearAll_of_mem hmem
  | endRelease lock id watermark now =>
    cases hstep
    exact h.fold_same rfl
  | lose lock id lost now =>
    cases hstep
    exact h.fold_same (s.manager.lose_timing lock id lost now)
  | renew lock token ttl payload now =>
    obtain ⟨renewed, hrenewed, rfl⟩ := Option.map_eq_some_iff.mp hstep
    exact h.fold_same (Manager.renew_timing hrenewed)
  | sweep now =>
    cases hstep
    obtain ⟨hclock, hsaved⟩ := Table.trimEnded_clock
      { s.manager.table with
        locks := (s.manager.table.locks.map fun _ entry => entry.sweep now).filter
          fun _ entry => !entry.isEmpty }
    refine h.fold_same ?_
    simp [Manager.timing, Table.sweep, hclock, hsaved]
  | putHold lock now wall =>
    obtain ⟨row, -, rfl⟩ := Option.map_eq_some_iff.mp hstep
    exact h.fold_same rfl
  | forgetHold lock id =>
    cases hstep
    exact h.fold_same rfl
  | beginSave =>
    obtain ⟨clock, -, rfl⟩ := Option.map_eq_some_iff.mp hstep
    exact ⟨h.monotone, h.below, h.stored⟩
  | finishSave clock =>
    simp only [ClockState.step] at hstep
    split at hstep
    · cases hstep
      exact h.finishSave hsound _
    · cases hstep
  | restart now wall =>
    cases hstep
    exact h.restart hsound

end ClockState

def ClockState.fresh (origin : Origin) : ClockState Origin :=
  { manager := { origin := origin } }

theorem ClockState.fresh_inv (origin : Origin) : (fresh origin).Inv where
  monotone := List.Pairwise.nil
  below := by simp [fresh]
  stored := UInt64.le_refl _

/-- In every run whose steps are sound, every ticket is above all tickets issued
and folded in before it. -/
theorem tickets_monotone_of_sound_run [ToString Origin]
    (origin : Origin) (events : List (ClockEvent Origin)) (s : ClockState Origin)
    (hsound : RunMeets ClockState.step ClockState.Sound (.fresh origin) events)
    (hrun : run ClockState.step (.fresh origin) events = some s) :
    TicketsMonotone s.history :=
  (run_invariant_of_meets ClockState.Inv
    (fun _ _ _ hinv hguard hstep => hinv.step hguard hstep)
    (ClockState.fresh_inv origin) hsound hrun).monotone

private def sampleRequest : LockRequest where
  lock := ⟨"s", "l"⟩
  ttl := 30000000000
  owner := ""
  payload := []
  mode := .sticky

private def heardAt (lamport : UInt64) : ClockEvent Nat :=
  .record [1] ⟨"s", "l"⟩ ⟨⟨⟨lamport, 1⟩, 0⟩, 30000, "", [], []⟩ false 0

private def attempt : ClockEvent Nat :=
  .beginAttempt sampleRequest 0 0 0

/-- A claim, a save, a restart, a claim heard and a second claim. -/
theorem tickets_monotone_after_restart :
    ∃ s, run ClockState.step (.fresh 0)
        [attempt, .beginSave, .finishSave 1, .restart 0 0, heardAt 7, attempt] = some s ∧
      s.history = [.issued 1, .folded 7, .folded 7, .issued 8] ∧
      TicketsMonotone s.history := by
  refine ⟨_, rfl, by decide, ?_⟩
  exact tickets_monotone_of_sound_run 0
    [attempt, .beginSave, .finishSave 1, .restart 0 0, heardAt 7, attempt] _
    (by decide) rfl

/-- Three runs issue a ticket that is not above one folded in before: the
increment passes the greatest word, the signed column keeps a lesser value, and
a restart loses a clock that was not yet saved. -/
theorem tickets_not_monotone :
    (∃ s, run ClockState.step (.fresh 0)
        [heardAt 0xffffffffffffffff, attempt] = some s ∧
      ¬TicketsMonotone s.history) ∧
    (∃ s, run ClockState.step (.fresh 0)
        [heardAt 5, .beginSave, .finishSave 5, heardAt 0x8000000000000000,
          .beginSave, .finishSave 0x8000000000000000, .restart 0 0, attempt] = some s ∧
      ¬TicketsMonotone s.history) ∧
    (∃ s, run ClockState.step (.fresh 0)
        [heardAt 5, .restart 0 0, attempt] = some s ∧
      ¬TicketsMonotone s.history) := by
  refine ⟨⟨_, rfl, ?_⟩, ⟨_, rfl, ?_⟩, ⟨_, rfl, ?_⟩⟩
  · decide
  · decide
  · decide

end Synch.Locks
