import Synch.Locks.Manager
import Synch.Support.Run
import Synch.Support.Word

/-!
# The Lamport clock across restarts

Tickets are taken from a clock that is raised in memory, written behind into a
signed column and reloaded at start.  The system below runs every operation of
one manager, keeps the history of tickets folded in and issued, and says under
which conditions on each step the issued tickets are monotone.
-/

namespace Synch.Locks

open Std (TreeMap)
open Synch.Support

variable {Origin : Type} [LinearOrder Origin]

/-! ## What each section does to the clock -/

/-- The clock, the greatest value known to be saved, and the stored column. -/
def Manager.timing (manager : Manager Origin) : UInt64 × UInt64 × Option Int64 :=
  (manager.table.clock, manager.table.saved, manager.clockRow)

namespace Table

theorem le_clock_hearAll (table : Table Origin) (lamports : List UInt64) :
    table.clock ≤ (table.hearAll lamports).clock := by
  induction lamports generalizing table with
  | nil => exact UInt64.le_refl _
  | cons lamport lamports ih =>
    exact UInt64.le_trans (le_max_left_word _ _) (ih (table.hear lamport))

theorem le_clock_hearAll_of_mem (table : Table Origin) {lamports : List UInt64} {lamport : UInt64}
    (h : lamport ∈ lamports) : lamport ≤ (table.hearAll lamports).clock := by
  induction lamports generalizing table with
  | nil => cases h
  | cons head lamports ih =>
    rcases List.mem_cons.mp h with rfl | hmem
    · exact UInt64.le_trans (le_max_right_word _ _) (le_clock_hearAll (table.hear lamport) lamports)
    · exact ih (table.hear head) hmem

@[simp]
theorem saved_hearAll (table : Table Origin) (lamports : List UInt64) :
    (table.hearAll lamports).saved = table.saved := by
  induction lamports generalizing table with
  | nil => rfl
  | cons lamport lamports ih => exact ih (table.hear lamport)

theorem trimEnded_clock (table : Table Origin) :
    table.trimEnded.clock = table.clock ∧ table.trimEnded.saved = table.saved :=
  trimEnded_invariant (fun t => t.clock = table.clock ∧ t.saved = table.saved)
    (fun _ _ h => h) ⟨rfl, rfl⟩

end Table

namespace Entry

omit [LinearOrder Origin] in
theorem le_foldl_max (ids : List (ClaimId Origin)) (top : UInt64) :
    top ≤ ids.foldl (fun top id => max top id.ticket.lamport) top := by
  induction ids generalizing top with
  | nil => exact UInt64.le_refl _
  | cons id ids ih => exact UInt64.le_trans (le_max_left_word _ _) (ih _)

omit [LinearOrder Origin] in
theorem le_foldl_max_of_mem {ids : List (ClaimId Origin)} {id : ClaimId Origin} (h : id ∈ ids)
    (top : UInt64) :
    id.ticket.lamport ≤ ids.foldl (fun top id => max top id.ticket.lamport) top := by
  induction ids generalizing top with
  | nil => cases h
  | cons head ids ih =>
    rcases List.mem_cons.mp h with rfl | hmem
    · exact UInt64.le_trans (le_max_right_word _ _) (le_foldl_max ids _)
    · exact ih hmem _

/-- The tickets an attempt folds in from this node's own table. -/
def tickets (entry : Entry Origin) : List UInt64 :=
  (entry.observed.keys ++ entry.ended.keys).map fun id => id.ticket.lamport

theorem le_heard_of_mem_tickets {entry : Entry Origin} {lamport : UInt64}
    (h : lamport ∈ entry.tickets) : lamport ≤ entry.heard := by
  obtain ⟨id, hid, rfl⟩ := List.mem_map.mp h
  exact le_foldl_max_of_mem hid 0

end Entry

namespace Manager

/-- Whether `record` folds the claim's ticket into the clock. -/
def hears (manager : Manager Origin) (writers : List Origin) (claim : Claim Origin) :
    Prop :=
  claim.id.ticket.origin ≠ manager.origin ∧ claim.id.ticket.origin ∈ writers

instance (manager : Manager Origin) (writers : List Origin) (claim : Claim Origin) :
    Decidable (manager.hears writers claim) :=
  inferInstanceAs (Decidable (_ ∧ _))

section Sections

variable (manager : Manager Origin) (writers : List Origin) (lock : LockName)
    (claim : Claim Origin) (renewal : Bool) (id : ClaimId Origin) (reason : EndReason)
    (watermark : Option (Watermark Origin)) (lost : Lost Origin) (gathered : Gathered Origin)
    (deadline sent now : Instant)

theorem recordRival_timing :
    (manager.recordRival lock claim renewal now).1.timing =
      (max manager.table.clock claim.id.ticket.lamport, manager.table.saved, manager.clockRow) := by
  unfold recordRival
  dsimp only
  split <;> rfl

theorem record_timing [ToString Origin] :
    (manager.record writers lock claim renewal now).1.timing =
      if manager.hears writers claim then
        (max manager.table.clock claim.id.ticket.lamport, manager.table.saved, manager.clockRow)
      else manager.timing := by
  unfold record
  by_cases hown : claim.id.ticket.origin = manager.origin
  · simp [hears, hown]
  · by_cases hwriter : claim.id.ticket.origin ∈ writers
    · simp [hears, hown, hwriter, recordRival_timing]
    · simp [hears, hown, hwriter]

theorem recordEnd_timing :
    (manager.recordEnd writers lock id reason watermark now).1.timing =
      manager.timing := by
  unfold recordEnd
  split
  · rfl
  · split <;> rfl

theorem lose_timing : (manager.lose lock id lost now).timing = manager.timing := by
  unfold lose
  split <;> rfl

theorem concludeAttempt_timing :
    (manager.concludeAttempt lock claim gathered deadline now).1.timing =
      ((manager.table.hearAll gathered.tickets).clock, manager.table.saved, manager.clockRow) := by
  simp [concludeAttempt, timing]

theorem finishRenewal_timing :
    (manager.finishRenewal lock claim gathered sent now).1.timing =
      ((manager.table.hearAll gathered.tickets).clock, manager.table.saved, manager.clockRow) := by
  unfold finishRenewal
  dsimp only
  split
  · simp [timing]
  · split
    · simp [timing]
    · split <;> simp [timing]

end Sections

theorem startRenewal_timing {manager next : Manager Origin} {lock : LockName} {now : Instant}
    {claim : Claim Origin} (h : manager.startRenewal lock now = some (next, claim)) :
    next.timing = manager.timing := by
  unfold startRenewal at h
  split at h
  · cases h
  · split at h
    · cases h
      rfl
    · cases h

theorem renew_timing {manager next : Manager Origin} {lock : LockName} {token : ClaimId Origin}
    {ttl : Option Duration} {payload : Option (List UInt8)} {now : Instant}
    (h : manager.renew lock token ttl payload now = some next) : next.timing = manager.timing := by
  unfold renew at h
  split at h
  · cases h
  · split at h
    · cases h
      rfl
    · cases h

theorem foldl_restoreHold_clock (origin : Origin) (now : Instant) (wall : Int)
    (rows : List (LockHoldRow Origin)) (table : Table Origin) :
    table.clock ≤ (rows.foldl (restoreHold origin now wall) table).clock ∧
      (rows.foldl (restoreHold origin now wall) table).saved = table.saved := by
  induction rows generalizing table with
  | nil => exact ⟨UInt64.le_refl _, rfl⟩
  | cons row rows ih =>
    obtain ⟨hclock, hsaved⟩ := ih (restoreHold origin now wall table row)
    exact ⟨UInt64.le_trans (le_max_left_word _ _) hclock, hsaved⟩

/-- A restart reloads at least the stored clock, and knows that value saved. -/
theorem restore_timing (manager : Manager Origin) (now : Instant) (wall : Int) :
    lockClock manager.clockRow ≤ (manager.restore now wall).table.clock ∧
      (manager.restore now wall).table.saved ≤ lockClock manager.clockRow ∧
      (manager.restore now wall).clockRow = manager.clockRow := by
  obtain ⟨hclock, hsaved⟩ := foldl_restoreHold_clock manager.origin now wall
    (manager.holds.filter fun row => !manager.dropsHold row wall)
    { clock := max 0 (lockClock manager.clockRow)
      saved := max 0 (lockClock manager.clockRow), locks := ∅ }
  refine ⟨UInt64.le_trans (le_max_right_word _ _) hclock, ?_, rfl⟩
  have hzero : (0 : UInt64) ≤ lockClock manager.clockRow :=
    UInt64.le_iff_toNat_le.mpr (Nat.zero_le _)
  rw [restore, hsaved]
  exact max_le_word hzero (UInt64.le_refl _)

/-- The stored clock and the value being saved lie on one side of `2 ^ 63`. -/
def SaveKeepsSide (row : Option Int64) (clock : UInt64) : Prop :=
  ∀ stored, row = some stored → (stored.toUInt64.toNat < 2 ^ 63 ↔ clock.toNat < 2 ^ 63)

instance (clock : UInt64) :
    (row : Option Int64) → Decidable (SaveKeepsSide row clock)
  | none => isTrue (by simp [SaveKeepsSide])
  | some stored =>
    decidable_of_iff (stored.toUInt64.toNat < 2 ^ 63 ↔ clock.toNat < 2 ^ 63)
      (by simp [SaveKeepsSide])

/-- On one side of `2 ^ 63` a save raises the stored clock to the maximum. -/
theorem lockClock_raiseLockClock
    {row : Option Int64} {clock : UInt64} (hside : SaveKeepsSide row clock) :
    lockClock (raiseLockClock row clock) = max (lockClock row) clock := by
  cases row with
  | none =>
    have hzero : (0 : UInt64) ≤ clock :=
      UInt64.le_iff_toNat_le.mpr (Nat.zero_le _)
    exact (if_pos hzero).symm
  | some stored =>
    have hmax := toUInt64_max_toInt64 (hside stored rfl)
    exact hmax

end Manager

end Synch.Locks
