import Synch.Locks.Table

/-!
# The lock manager of one node

The operations of `LockManager`, one critical section at a time.  A claim
exchange is `beginAttempt`, the peers' `record`s, and `concludeAttempt`; a
renewal is `startRenewal`, the peers' `record`s, and `finishRenewal`.  What runs
between the sections — the network — is left to the systems built on top.
-/

namespace Synch.Locks

open Std (TreeMap)
open Synch.Support

variable {Origin : Type} [LinearOrder Origin]

instance lawfulBEqOrigin : LawfulBEq Origin := inferInstance

structure LockRequest where
  lock : LockName
  ttl : Duration
  owner : String
  payload : List UInt8
  mode : HoldMode
deriving DecidableEq, Repr

/-- One hold as it is persisted; 64-bit values are stored as signed columns. -/
structure LockHoldRow (Origin : Type) where
  lock : LockName
  origin : Origin
  lamport : Int64
  nonce : Int64
  ttlMs : UInt32
  sticky : Bool
  owner : String
  payload : List UInt8
  supersedes : List (ClaimId Origin)
  acquiredAt : Int
  leaseUntil : Option Int
deriving DecidableEq, Repr

/-- The table of one node and the lock rows of its store. -/
structure Manager (Origin : Type) [LinearOrder Origin] where
  origin : Origin
  table : Table Origin := {}
  clockRow : Option Int64 := none
  holds : List (LockHoldRow Origin) := []

inductive Decided (Origin : Type) where
  | hold
  | broken
  | withdraw (winner : Option (Claim Origin × Bool)) (reclaim : Bool)
deriving DecidableEq, Repr

/-! ## Sections that touch one entry -/

namespace Entry

variable (entry : Entry Origin)

/-- Fold the ended claims of the answers in, apart from the claimant's own. -/
def endReported (mine : ClaimId Origin)
    (ended : List (ClaimId Origin × EndReason)) (now : Instant) :
    Entry Origin :=
  ended.foldl (fun acc report =>
      if report.1 = mine then acc else acc.endClaim report.1 report.2 now)
    entry

def watermarkAll (marks : List (Watermark Origin)) (now : Instant) : Entry Origin :=
  marks.foldl (fun acc mark => acc.watermark mark now) entry

/-- What the answers and this node's own observations say together. -/
def noteObserved (gathered : Gathered Origin) : Gathered Origin :=
  (valuesOf entry.observed).foldl (fun acc o => acc.note o.claim o.state) gathered

def endReasons : TreeMap (ClaimId Origin) EndReason :=
  entry.ended.map fun _ ended => ended.1

/-- The entry once the answers' ends and watermarks are folded in. -/
def absorb (mine : ClaimId Origin) (gathered : Gathered Origin) (now : Instant) : Entry Origin :=
  (entry.endReported mine gathered.ended.toList now).watermarkAll (valuesOf gathered.watermarks) now

def contends (id : ClaimId Origin) : Bool :=
  entry.own.any fun own => own.claim.id == id && !own.isHeld

def promote (supersedes : List (ClaimId Origin)) (deadline : Instant) : Entry Origin :=
  { entry with
    own := entry.own.map fun own =>
      { own with
        claim := { own.claim with supersedes := supersedes }
        phase := .held
        deadline := deadline
        lastRenew := none } }

/-- The decision section of a claim exchange, on answers already absorbed. -/
def settle (claim : Claim Origin) (gathered : Gathered Origin)
    (deadline now : Instant) : Entry Origin × Decided Origin :=
  if !entry.contends claim.id || gathered.ended.contains claim.id then
    (entry.takeOwn claim.id, .broken)
  else
    match decideClaim claim.id (entry.noteObserved gathered).known entry.endReasons with
    | .hold supersedes => (entry.promote supersedes deadline, .hold)
    | .yield winner reclaim =>
      (({ entry with own := none } : Entry Origin).endClaim claim.id .withdrawn
        now, .withdraw winner reclaim)

/-- The own claim after a renewal the heal did not lose. -/
def confirm (own : Own Origin) (deadline : Instant) : Own Origin :=
  { own with
    deadline := deadline
    phase := if own.phase = .unconfirmed then .held else own.phase }

/-- The answer section of a renewal, for the own claim it renewed. -/
def healOwn (own : Own Origin) (gathered : Gathered Origin)
    (sent : Instant) : Entry Origin × Option (Lost Origin) :=
  let renewed := { own with renewing := false }
  match heal own.claim gathered with
  | none =>
    ({ entry with own := some (confirm renewed (sent + ofMillis own.claim.ttlMs)) }, none)
  | some lost => ({ entry with own := some renewed }, some lost)

/-- Expire observed claims past their lease and forget what is too old. -/
def sweep (now : Instant) : Entry Origin :=
  let observed := entry.observed.map fun _ o =>
    { o with expired := o.expired || decide (o.deadline ≤ now) }
  { entry with
    observed := observed.filter fun _ o =>
      !o.expired || decide (now - o.deadline < endedMemory)
    ended := entry.ended.filter fun _ ended => decide (now - ended.2 < endedMemory)
    watermarks := entry.watermarks.filter fun _ mark =>
      decide (now - mark.2 < endedMemory) }

def renewalDue (own : Own Origin) (now : Instant) : Bool :=
  own.isHeld && own.clientDeadline.all (fun deadline => decide (now < deadline)) &&
    !own.renewing &&
    own.lastRenew.all fun last => decide (last + ofMillis own.claim.ttlMs / 3 ≤ now)

end Entry

/-! ## Sections that touch the whole table -/

namespace Table

variable (table : Table Origin)

/-- Every ended claim the table remembers, with the time it was recorded. -/
def endedIds : List (LockName × ClaimId Origin × Instant) :=
  table.locks.toList.flatMap fun entry =>
    entry.2.ended.toList.map fun ended => (entry.1, ended.1, ended.2.2)

def forgetEnded (ended : LockName × ClaimId Origin × Instant) : Table Origin :=
  table.modify ended.1 fun entry =>
    { entry with ended := entry.ended.erase ended.2.1 }

/-- Forget the oldest ended claims beyond the bound. -/
def trimEnded : Table Origin :=
  let total := table.endedIds.length
  if total ≤ maxEndedIds then
    table
  else
    ((table.endedIds.insertionSort fun a b => a.2.2 ≤ b.2.2).take
      (total - maxEndedIds)).foldl forgetEnded table

/-- What forgetting one ended claim keeps, trimming keeps. -/
theorem trimEnded_invariant (Inv : Table Origin → Prop) {table : Table Origin}
    (hforget : ∀ t ended, Inv t → Inv (t.forgetEnded ended)) (h : Inv table) :
    Inv table.trimEnded := by
  unfold trimEnded
  dsimp only
  split
  · exact h
  · exact List.foldlRecOn _ _ h fun t ht ended _ => hforget t ended ht

/-- The sweep of one tick over every entry. -/
def sweep (table : Table Origin) (now : Instant) : Table Origin :=
  trimEnded { table with
    locks := (table.locks.map fun _ entry => entry.sweep now).filter fun _ entry => !entry.isEmpty }

end Table

/-! ## The manager's sections -/

namespace Manager

def refused (reason : String) : LockMessage Origin :=
  .refused reason

/-- Whether the table has no room for a further claim of the origin. -/
def isFull (table : Table Origin) (origin : Origin) : Bool :=
  decide (maxTableClaims ≤ table.claims) || decide (maxClaimsPerOrigin ≤ table.claimsOf origin)

variable (manager : Manager Origin)

variable (lock : LockName)

/-- Hear, record and answer a claim or renewal of an authorized peer. -/
def recordRival (claim : Claim Origin)
    (renewal : Bool) (now : Instant) : Manager Origin × LockMessage Origin :=
  let heard := manager.table.hear claim.id.ticket.lamport
  let fresh := !(heard.entry lock).observed.contains claim.id
  if fresh && isFull heard claim.id.ticket.origin then
    ({ manager with table := heard }, refused "the lock table is full")
  else
    let table := heard.modify lock fun entry => entry.observe claim renewal now
    ({ manager with table := table }, (table.entry lock).answer now)

/-- Record a claim or renewal from a peer that speaks for `writers`, and answer
with the table. -/
def record [ToString Origin]
    (manager : Manager Origin) (writers : List Origin) (lock : LockName)
    (claim : Claim Origin) (renewal : Bool) (now : Instant) :
    Manager Origin × LockMessage Origin :=
  if claim.id.ticket.origin = manager.origin then
    (manager, (manager.table.entry lock).answer now)
  else if claim.id.ticket.origin ∈ writers then
    manager.recordRival lock claim renewal now
  else
    (manager, refused (toString claim.id.ticket.origin ++ " is not a writer of " ++ lock.space))

/-- Whether a peer that speaks for `writers` may end the claim. -/
def mayEnd (writers : List Origin) (id : ClaimId Origin) (reason : EndReason) : Bool :=
  match reason with
  | .broken => !writers.isEmpty
  | _ => decide (id.ticket.origin ∈ writers)

def forgetHold (id : ClaimId Origin) : Manager Origin :=
  { manager with
    holds := manager.holds.filter fun row =>
      !(row.lock == lock && row.lamport == id.ticket.lamport.toInt64 &&
        row.nonce == id.nonce.toInt64) }

def owns (id : ClaimId Origin) : Bool :=
  (manager.table.entry lock).own.any fun own => own.claim.id == id

def recordEnd (writers : List Origin) (lock : LockName)
    (id : ClaimId Origin) (reason : EndReason)
    (watermark : Option (Watermark Origin)) (now : Instant) :
    Manager Origin × LockMessage Origin :=
  if !mayEnd writers id reason then
    (manager, refused ("not a writer of " ++ lock.space ++ " for that claim"))
  else if manager.owns lock id then
    (({ manager with
        table := manager.table.modify lock fun entry =>
          (entry.takeOwn id).endClaim id reason now } : Manager Origin).forgetHold
      lock id, .ack)
  else
    ({ manager with
        table := manager.table.modify lock fun entry =>
          (entry.endClaim id reason now).watermarkAll
            ((watermark.filter fun mark => mark.origin == id.ticket.origin).toList)
            now },
      .ack)

/-- Take a ticket above every ticket heard of and start contending. -/
def beginAttempt (request : LockRequest) (nonce : UInt64)
    (now : Instant) (wall : Int) : Manager Origin × Claim Origin :=
  let table := manager.table
  let lamport := max table.clock (table.entry request.lock).heard + 1
  let claim : Claim Origin :=
    { id := ⟨⟨lamport, manager.origin⟩, nonce⟩
      ttlMs := millis request.ttl
      owner := request.owner
      payload := request.payload
      supersedes := [] }
  let own : Own Origin :=
    { claim := claim
      phase := .contending
      mode := request.mode
      deadline := now + request.ttl
      clientDeadline := if request.mode = .lease then some (now + request.ttl) else none
      lastRenew := some now
      renewing := false
      acquiredAt := wall }
  let contending := ({ table with clock := lamport } : Table Origin).modify
    request.lock fun entry => { entry with own := some own }
  ({ manager with table := contending }, claim)

/-- Give an attempt up before its claim leaves, since the clock did not persist. -/
def dropAttempt (id : ClaimId Origin) : Manager Origin :=
  { manager with
    table := manager.table.modify lock fun entry => entry.takeOwn id }

/-- Decide a claim exchange from its answers. -/
def concludeAttempt (claim : Claim Origin)
    (gathered : Gathered Origin) (deadline now : Instant) :
    Manager Origin × Decided Origin :=
  let heard := manager.table.hearAll gathered.tickets
  let absorbed := (heard.entry lock).absorb claim.id gathered now
  let settled := absorbed.settle claim gathered deadline now
  ({ manager with table := heard.modify lock fun _ => settled.1 }, settled.2)

/-- Mark a due hold as being renewed; the claim is what the renewal carries. -/
def startRenewal (now : Instant) : Option (Manager Origin × Claim Origin) :=
  match (manager.table.entry lock).own with
  | none => none
  | some own =>
    if Entry.renewalDue own now then
      some ({ manager with
        table := manager.table.modify lock fun entry =>
          { entry with
            own := some { own with renewing := true, lastRenew := some now } } },
        own.claim)
    else
      none

/-- Act on the answers to a renewal. -/
def finishRenewal (claim : Claim Origin)
    (gathered : Gathered Origin) (sent now : Instant) :
    Manager Origin × Option (Lost Origin) :=
  let heard := manager.table.hearAll gathered.tickets
  if !heard.locks.contains lock then
    ({ manager with table := heard }, none)
  else
    let marked := (heard.entry lock).watermarkAll (valuesOf gathered.watermarks) now
    match marked.own with
    | none => ({ manager with table := heard.modify lock fun _ => marked }, none)
    | some own =>
      if own.claim.id = claim.id then
        let healed := marked.healOwn own gathered sent
        ({ manager with table := heard.modify lock fun _ => healed.1 }, healed.2)
      else
        ({ manager with table := heard.modify lock fun _ => marked }, none)

/-- End this node's claim with a release and its handoff watermark. -/
def endRelease (id : ClaimId Origin)
    (watermark : Option (Watermark Origin)) (now : Instant) : Manager Origin :=
  { manager with
    table := manager.table.modify lock fun entry =>
      ((entry.takeOwn id).endClaim id .released now).watermarkAll watermark.toList now }

def lossReason : Lost Origin → EndReason
  | .ended reason => reason
  | .superseded _ => .superseded

/-- Lose this node's claim to a heal, if it still is the one named. -/
def lose (id : ClaimId Origin) (lost : Lost Origin) (now : Instant) : Manager Origin :=
  if manager.owns lock id then
    { manager with
      table := manager.table.modify lock fun entry =>
        (entry.takeOwn id).endClaim id (lossReason lost) now }
  else
    manager

/-- Extend a lease-mode hold, optionally replacing its payload. -/
def renew (token : ClaimId Origin)
    (ttl : Option Duration) (payload : Option (List UInt8)) (now : Instant) :
    Option (Manager Origin) :=
  match (manager.table.entry lock).own with
  | none => none
  | some own =>
    if own.claim.id = token ∧ own.isHeld = true then
      let extended := { own with
        clientDeadline :=
          if own.mode = .lease then
            some (now + ttl.getD (ofMillis own.claim.ttlMs))
          else own.clientDeadline }
      let renewed := match payload with
        | none => extended
        | some bytes =>
          { extended with
            claim := { own.claim with payload := bytes }, lastRenew := none }
      some { manager with
        table := manager.table.modify lock fun entry =>
          { entry with own := some renewed } }
    else
      none

/-! ### Persistence -/

/-- The row a hold persists as, or `none` for a session hold. -/
def holdRow (own : Own Origin) (now : Instant) (wall : Int) : Option (LockHoldRow Origin) :=
  if own.mode = .session then
    none
  else
    some
      { lock := lock
        origin := manager.origin
        lamport := own.claim.id.ticket.lamport.toInt64
        nonce := own.claim.id.nonce.toInt64
        ttlMs := own.claim.ttlMs
        sticky := own.mode == .sticky
        owner := own.claim.owner
        payload := own.claim.payload
        supersedes := own.claim.supersedes
        acquiredAt := own.acquiredAt
        leaseUntil := own.clientDeadline.map fun deadline =>
          wall + ((deadline - now : Nat) : Int) }

def putHold (row : LockHoldRow Origin) : Manager Origin :=
  { manager with holds := row :: manager.holds.filter fun other => other.lock != row.lock }

/-- The persisted clock, zero on a node that never claimed. -/
def lockClock (row : Option Int64) : UInt64 :=
  (row.map Int64.toUInt64).getD 0

/-- Raise the persisted clock; the column is signed and so is its maximum. -/
def raiseLockClock (row : Option Int64) (lamport : UInt64) : Option Int64 :=
  some (match row with
    | none => lamport.toInt64
    | some stored => max stored lamport.toInt64)

/-- The clock value a save starting now would write. -/
def pendingSave : Option UInt64 :=
  if manager.table.saved < manager.table.clock then some manager.table.clock
  else none

/-- Write a clock value that a save picked up earlier. -/
def finishSave (clock : UInt64) : Manager Origin :=
  { manager with
    clockRow := raiseLockClock manager.clockRow clock
    table := { manager.table with saved := max manager.table.saved clock } }

def dropsHold (row : LockHoldRow Origin) (wall : Int) : Bool :=
  row.origin != manager.origin ||
    (!row.sticky && row.leaseUntil.any fun limit => decide (limit ≤ wall))

def restoreHold
    (origin : Origin) (now : Instant) (wall : Int)
    (table : Table Origin) (row : LockHoldRow Origin) : Table Origin :=
  let claim : Claim Origin :=
    { id := ⟨⟨row.lamport.toUInt64, origin⟩, row.nonce.toUInt64⟩
      ttlMs := row.ttlMs
      owner := row.owner
      payload := row.payload
      supersedes := row.supersedes }
  (table.hear row.lamport.toUInt64).modify row.lock fun entry =>
    { entry with
      own := some
        { claim := claim
          phase := .unconfirmed
          mode := if row.sticky then .sticky else .lease
          deadline := now + ofMillis row.ttlMs
          clientDeadline := row.leaseUntil.map fun limit => now + (limit - wall).toNat
          lastRenew := none
          renewing := false
          acquiredAt := row.acquiredAt } }

/-- Start over from the store: an empty table, the persisted clock and the
persisted holds. -/
def restore (now : Instant) (wall : Int) : Manager Origin :=
  let clock := lockClock manager.clockRow
  let kept := manager.holds.filter fun row => !manager.dropsHold row wall
  { manager with
    table := kept.foldl (restoreHold manager.origin now wall)
      { clock := max 0 clock, saved := max 0 clock, locks := ∅ }
    holds := kept }

end Manager

end Synch.Locks
