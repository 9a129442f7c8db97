import Mathlib.Data.List.Sort
import Mathlib.Algebra.GroupWithZero.Nat
import Synch.Locks.Rules

/-!
# The lock table of one node

The in-memory table of `LockManager` (`synch-engine`, `locks.rs`) and the rows it
persists.  Every definition below is one critical section of the source: the
part of an operation that runs under the table's mutex.  Instants and durations
are nanoseconds of a monotonic clock.
-/

namespace Synch.Locks

open Std (TreeMap)
open Synch.Support

abbrev Instant := Nat

abbrev Duration := Nat

/-- Whole milliseconds of a duration, saturating at 32 bits. -/
def millis (d : Duration) : UInt32 :=
  UInt32.ofNat (min (d / 1000000) (2 ^ 32 - 1))

def ofMillis (ms : UInt32) : Duration :=
  ms.toNat * 1000000

/-- How long an observer keeps a claim after receiving it: `ttl · (1 + 2ρ)`. -/
def observerLease (ttlMs : UInt32) : Duration :=
  ofMillis ttlMs * 1002 / 1000

def endedMemory : Duration := 2 * 3600 * 1000000000
def maxEndedIds : Nat := 65536
def maxTableClaims : Nat := 65536
def maxClaimsPerOrigin : Nat := 1024

inductive Phase where
  | contending
  | held
  | unconfirmed
deriving DecidableEq, Repr

/-- This node's own claim on a lock. -/
structure Own (Origin : Type) where
  claim : Claim Origin
  phase : Phase
  mode : HoldMode
  deadline : Instant
  clientDeadline : Option Instant
  lastRenew : Option Instant
  renewing : Bool
  acquiredAt : Int
deriving DecidableEq, Repr

def Own.isHeld {Origin : Type} (own : Own Origin) : Bool :=
  own.phase != .contending

/-- What this node recorded of another node's claim. -/
structure Observed (Origin : Type) where
  claim : Claim Origin
  held : Bool
  deadline : Instant
  expired : Bool
deriving DecidableEq, Repr

def Observed.state {Origin : Type} (observed : Observed Origin) : ClaimState :=
  if observed.expired then .expired else if observed.held then .held else .live

variable {Origin : Type} [LinearOrder Origin]

/-- Everything one node knows about one lock. -/
structure Entry (Origin : Type) [LinearOrder Origin] where
  observed : TreeMap (ClaimId Origin) (Observed Origin) := ∅
  ended : TreeMap (ClaimId Origin) (EndReason × Instant) := ∅
  watermarks : TreeMap Origin (UInt64 × Instant) := ∅
  own : Option (Own Origin) := none

namespace Entry

variable (entry : Entry Origin)

def isEmpty : Bool :=
  entry.observed.isEmpty && entry.ended.isEmpty && entry.watermarks.isEmpty && entry.own.isNone

def endClaim (id : ClaimId Origin) (reason : EndReason) (now : Instant) : Entry Origin :=
  { entry with
    observed := entry.observed.erase id
    ended := entry.ended.insert id (reason, now) }

/-- Keep the greatest watermark of an origin, refreshing its time. -/
def watermark (mark : Watermark Origin) (now : Instant) : Entry Origin :=
  let slot := entry.watermarks.getD mark.origin (0, now)
  { entry with
    watermarks := entry.watermarks.insert mark.origin
      (if slot.1 ≤ mark.seq then (mark.seq, now) else slot) }

/-- Drop this node's own claim if it is the one named. -/
def takeOwn (id : ClaimId Origin) : Entry Origin :=
  { entry with own := entry.own.filter fun own => own.claim.id != id }

def ownReport (own : Own Origin) (now : Instant) : Report Origin where
  claim := own.claim
  state := if own.isHeld then .held else .live
  remainingMs := millis (own.deadline - now)

/-- Strongest state first, then least claim id. -/
def reportsBefore (a b : Observed Origin) : Prop :=
  b.state < a.state ∨ a.state = b.state ∧ a.claim.id ≤ b.claim.id

instance : DecidableRel (reportsBefore : Observed Origin → Observed Origin → Prop) := fun a b =>
  inferInstanceAs (Decidable (b.state < a.state ∨ _))

def sortedObserved : List (Observed Origin) :=
  (valuesOf entry.observed).insertionSort reportsBefore

def sortedEnded : List (ClaimId Origin × EndReason × Instant) :=
  entry.ended.toList.insertionSort fun a b => b.2.2 ≤ a.2.2

def sortedWatermarks : List (Origin × UInt64 × Instant) :=
  entry.watermarks.toList.insertionSort fun a b => b.2.2 ≤ a.2.2

/-- The claims an answer reports: this node's own first, then what it observed. -/
def reports (now : Instant) : List (Report Origin) :=
  let own := entry.own.toList.map fun own => ownReport own now
  own ++ (entry.sortedObserved.take (maxLockReports - own.length)).map fun o =>
    { claim := o.claim, state := o.state, remainingMs := millis (o.deadline - now) }

def endedReports : List (ClaimId Origin × EndReason) :=
  (entry.sortedEnded.take maxLockEnded).map fun ended => (ended.1, ended.2.1)

def watermarkReports : List (Watermark Origin) :=
  (entry.sortedWatermarks.take maxLockWatermarks).map fun mark =>
    { origin := mark.1, seq := mark.2.1 }

/-- What this node answers about the lock. -/
def answer (now : Instant) : LockMessage Origin :=
  .answer (entry.reports now) entry.endedReports entry.watermarkReports

/-- The greatest Lamport value among the observed and ended claims. -/
def heard : UInt64 :=
  (entry.observed.keys ++ entry.ended.keys).foldl (fun top id => max top id.ticket.lamport) 0

/-- Record a claim or renewal that is not known to have ended. -/
def observe (claim : Claim Origin) (renewal : Bool) (now : Instant) : Entry Origin :=
  if entry.ended.contains claim.id then
    entry
  else
    let before := (entry.observed[claim.id]?).any Observed.held
    { entry with
      observed := entry.observed.insert claim.id
        { claim := claim
          held := before || renewal
          deadline := now + observerLease claim.ttlMs
          expired := false } }

end Entry

structure Table (Origin : Type) [LinearOrder Origin] where
  clock : UInt64 := 0
  saved : UInt64 := 0
  locks : TreeMap LockName (Entry Origin) := ∅

namespace Table

variable (table : Table Origin)

/-- The entry of a lock, empty when the table has none. -/
def entry (lock : LockName) : Entry Origin :=
  table.locks.getD lock {}

/-- Update the entry of a lock, creating it when the table has none. -/
def modify (lock : LockName) (f : Entry Origin → Entry Origin) : Table Origin :=
  { table with locks := table.locks.insert lock (f (table.entry lock)) }

def hear (lamport : UInt64) : Table Origin :=
  { table with clock := max table.clock lamport }

def hearAll (lamports : List UInt64) : Table Origin :=
  lamports.foldl hear table

def claims : Nat :=
  ((valuesOf table.locks).map fun entry => entry.observed.size).sum

def claimsOf (origin : Origin) : Nat :=
  (((valuesOf table.locks).flatMap fun entry => entry.observed.keys).filter
    fun id => id.ticket.origin == origin).length

end Table

/-! ## Frame lemmas -/

namespace Table

variable (table : Table Origin) (lock : LockName) (f : Entry Origin → Entry Origin)

@[simp]
theorem entry_modify_self : (table.modify lock f).entry lock = f (table.entry lock) := by
  simp [modify, entry]

theorem entry_modify_of_ne {lock other : LockName} (hne : lock ≠ other)
    (f : Entry Origin → Entry Origin) : (table.modify lock f).entry other = table.entry other := by
  simp [modify, entry, TreeMap.getD_insert, hne]

theorem entry_modify (other : LockName) (f : Entry Origin → Entry Origin) :
    (table.modify lock f).entry other =
      if lock = other then f (table.entry lock) else table.entry other := by
  by_cases h : lock = other
  · subst h
    simp
  · simp [h, table.entry_modify_of_ne h f]

@[simp]
theorem entry_hear (lamport : UInt64) (lock : LockName) :
    (table.hear lamport).entry lock = table.entry lock :=
  rfl

@[simp]
theorem entry_hearAll (lamports : List UInt64) (lock : LockName) :
    (table.hearAll lamports).entry lock = table.entry lock := by
  induction lamports generalizing table with
  | nil => rfl
  | cons lamport lamports ih => simpa [hearAll] using ih (table.hear lamport)

@[simp]
theorem clock_modify : (table.modify lock f).clock = table.clock :=
  rfl

@[simp]
theorem saved_modify : (table.modify lock f).saved = table.saved :=
  rfl

end Table

end Synch.Locks
