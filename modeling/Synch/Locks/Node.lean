import Synch.Locks.Sections

/-!
# The lock operations of one node, interleaved

A node runs any number of lock operations at once.  Each is cut where the source
lets another run: at the table's mutex, at the gate of the lock, and at every wait
for the network or the store.  A gate is held for read by fenced commits and for
write by whatever ends this node's hold.  The log records what the two guarantees
are about: the commits let through and completed, the holds ended and the locks
reported acquired.
-/

namespace Synch.Locks

open Std (TreeMap)
open Synch.Support

variable {Origin : Type} [LinearOrder Origin]

/-- A commit that holds the gate for read.  Its limit is that of the hold it was let
through under, and is missing until its check. -/
structure Commit (Origin : Type) where
  token : ClaimId Origin
  limit : Option Instant
deriving DecidableEq, Repr

/-- Where the operation that holds the gate for write stands. -/
inductive Closing (Origin : Type) where
  /-- A release that has not looked for the hold yet. -/
  | releasing (token : Option (ClaimId Origin))
  /-- A release that flushes the staged writes. -/
  | flushing (id : ClaimId Origin)
  /-- A release that has read its watermark. -/
  | marked (id : ClaimId Origin) (watermark : Option (Watermark Origin))
  /-- A loss to a heal. -/
  | losing (id : ClaimId Origin) (lost : Lost Origin)
  /-- An end sent by a peer that named this node's own claim. -/
  | peerEnd (id : ClaimId Origin) (reason : EndReason) (now : Instant)
  /-- The hold has ended and the peers are told. -/
  | telling
deriving DecidableEq, Repr

structure Gate (Origin : Type) where
  commits : List (Commit Origin) := []
  ending : Option (Closing Origin) := none
deriving DecidableEq, Repr

/-- No one holds the gate. -/
def Gate.isFree {Origin : Type} (gate : Gate Origin) : Bool :=
  gate.commits.isEmpty && gate.ending.isNone

/-- Where this node's attempt on a lock stands. -/
inductive Attempt (Origin : Type) where
  /-- The attempt has the lock's attempt gate and found no own claim. -/
  | entered
  /-- The claim is out. -/
  | asking (claim : Claim Origin) (allowBehind : Bool)
  /-- The claim is held and the handoff awaited.  `carried` is what the answers
  carried, `marks` what is waited for, `unseen` what the current poll has not read. -/
  | awaiting (id : ClaimId Origin) (allowBehind : Bool)
      (carried marks unseen : List (Watermark Origin))
deriving DecidableEq, Repr

/-- An end sent by a peer, past the test whether it names this node's own claim. -/
structure PeerEnd (Origin : Type) where
  lock : LockName
  id : ClaimId Origin
  reason : EndReason
  watermark : Option (Watermark Origin)
  now : Instant
  own : Bool
deriving DecidableEq, Repr

inductive Happening (Origin : Type) where
  /-- A fenced commit was let through. -/
  | admitted (lock : LockName) (token : ClaimId Origin)
  /-- A fenced commit completed; the hold is this node's own claim at that instant. -/
  | completed (lock : LockName) (token : ClaimId Origin) (hold : Option (Own Origin))
      (now : Instant)
  /-- This node's own claim ended. -/
  | ended (lock : LockName) (id : ClaimId Origin)
  /-- A lock was reported acquired; `behind` are the watermarks recorded for it that
  this node's complete heads had not reached. -/
  | acquired (lock : LockName) (id : ClaimId Origin) (allowBehind : Bool)
      (behind : List (Watermark Origin))
deriving DecidableEq, Repr

structure Node (Origin : Type) [LinearOrder Origin] where
  manager : Manager Origin
  /-- The seq of the complete head of each origin. -/
  heads : Origin → Option UInt64
  attempts : TreeMap LockName (Attempt Origin) := ∅
  gates : LockName → Gate Origin := fun _ => {}
  ends : List (PeerEnd Origin) := []
  log : List (Happening Origin) := []

inductive NodeEvent (Origin : Type) where
  | record (writers : List Origin) (lock : LockName) (claim : Claim Origin)
      (renewal : Bool) (now : Instant)
  | receiveEnd (writers : List Origin) (lock : LockName) (id : ClaimId Origin)
      (reason : EndReason) (watermark : Option (Watermark Origin)) (now : Instant)
  | endOther (message : PeerEnd Origin)
  | takeEnd (message : PeerEnd Origin)
  | takeRelease (lock : LockName) (token : Option (ClaimId Origin))
  | takeLoss (lock : LockName) (id : ClaimId Origin) (lost : Lost Origin)
  | findHold (lock : LockName)
  | readHead (lock : LockName)
  | endHold (lock : LockName) (now : Instant)
  | closeGate (lock : LockName)
  | breakOthers (lock : LockName) (holder : Option Origin)
      (answers : List (LockMessage Origin)) (now : Instant)
  | enter (lock : LockName)
  | beginAttempt (request : LockRequest) (allowBehind : Bool) (nonce : UInt64)
      (now : Instant) (wall : Int)
  | giveUp (lock : LockName)
  | conclude (lock : LockName) (answers : List (LockMessage Origin)) (deadline now : Instant)
  | pollHead (lock : LockName)
  | report (lock : LockName)
  | startRenewal (lock : LockName) (now : Instant)
  | finishRenewal (lock : LockName) (claim : Claim Origin)
      (answers : List (LockMessage Origin)) (sent now : Instant)
  | renew (lock : LockName) (token : ClaimId Origin) (ttl : Option Duration)
      (payload : Option (List UInt8)) (now : Instant)
  | sweep (now : Instant)
  | setHead (origin : Origin) (seq : Option UInt64)
  | fence (lock : LockName) (token : ClaimId Origin)
  | check (lock : LockName) (token : ClaimId Origin) (now : Instant)
  | complete (lock : LockName) (token : ClaimId Origin) (limit now : Instant)

/-- The test a fence makes under the table's mutex. -/
def Own.letsThrough (own : Own Origin) (token : ClaimId Origin) (now : Instant) : Bool :=
  own.claim.id == token && own.isHeld &&
    own.clientDeadline.all fun deadline => decide (now < deadline)

/-- What is logged when a section leaves `after` for the own claim `before`. -/
def endedHold (lock : LockName) (before after : Option (Own Origin)) : List (Happening Origin) :=
  match before with
  | none => []
  | some own =>
    if after.any fun own' => own'.claim.id == own.claim.id then []
    else [.ended lock own.claim.id]

namespace Node

def fresh (origin : Origin) (heads : Origin → Option UInt64) : Node Origin where
  manager := { origin := origin }
  heads := heads

variable (s : Node Origin)

/-- The seq that a node has completely for an origin. -/
def headSeq (origin : Origin) : UInt64 :=
  (s.heads origin).getD 0

variable (lock : LockName)

def tableMarks : List (Watermark Origin) :=
  (s.manager.marks lock).toList.map fun mark => ⟨mark.1, mark.2.1⟩

/-- The watermarks recorded for a lock that the complete heads have not reached. -/
def behind (carried : List (Watermark Origin)) : List (Watermark Origin) :=
  (carried ++ s.tableMarks lock).filter fun mark => decide (s.headSeq mark.origin < mark.seq)

/-- Continue with the manager that a section on `lock` left. -/
def advance (manager : Manager Origin) : Node Origin :=
  { s with
    manager := manager
    log := s.log ++ endedHold lock (s.manager.hold lock) (manager.hold lock) }

def setEnding (ending : Option (Closing Origin)) : Node Origin :=
  { s with gates := Function.update s.gates lock { s.gates lock with ending := ending } }

def setCommits (commits : List (Commit Origin)) : Node Origin :=
  { s with gates := Function.update s.gates lock { s.gates lock with commits := commits } }

def setAttempt (attempt : Attempt Origin) : Node Origin :=
  { s with attempts := s.attempts.insert lock attempt }

def dropAttempt : Node Origin :=
  { s with attempts := s.attempts.erase lock }

def happens (happening : Happening Origin) : Node Origin :=
  { s with log := s.log ++ [happening] }

/-- The section that ends a hold, for the operation that has the gate. -/
def endHold (now : Instant) : Option (Manager Origin) :=
  match (s.gates lock).ending with
  | some (.marked id watermark) => some (s.manager.endRelease lock id watermark now)
  | some (.losing id lost) => some (s.manager.lose lock id lost now)
  | some (.peerEnd id reason received) => some (s.manager.endOwn lock id reason received)
  | _ => none

/-- The decision of an attempt and what it waits for next. -/
def conclude (claim : Claim Origin) (allowBehind : Bool)
    (answers : List (LockMessage Origin)) (deadline now : Instant) : Node Origin :=
  let gathered := gather answers
  let decided := s.manager.concludeAttempt lock claim gathered deadline now
  let marks := gathered.handoff s.manager.origin
  match decided.2 with
  | .hold =>
    (s.advance lock decided.1).setAttempt lock (.awaiting claim.id allowBehind
      (answers.flatMap LockMessage.watermarks) marks marks)
  | _ => (s.advance lock decided.1).dropAttempt lock

/-- One section of one operation. -/
def step [ToString Origin] (s : Node Origin) : NodeEvent Origin → Option (Node Origin)
  | .record writers lock claim renewal now =>
    some (s.advance lock (s.manager.record writers lock claim renewal now).1)
  | .receiveEnd writers lock id reason watermark now =>
    if Manager.mayEnd writers id reason then
      some { s with
        ends := ⟨lock, id, reason, watermark, now, s.manager.owns lock id⟩ :: s.ends }
    else some s
  | .endOther message =>
    if message ∈ s.ends ∧ message.own = false then
      let ended := s.manager.endOther message.lock message.id message.reason
        message.watermark message.now
      some { s.advance message.lock ended with ends := s.ends.erase message }
    else none
  | .takeEnd message =>
    if message ∈ s.ends ∧ message.own = true ∧ (s.gates message.lock).isFree then
      some { s.setEnding message.lock
          (some (.peerEnd message.id message.reason message.now)) with
        ends := s.ends.erase message }
    else none
  | .takeRelease lock token =>
    if (s.gates lock).isFree then some (s.setEnding lock (some (.releasing token)))
    else none
  | .takeLoss lock id lost =>
    if (s.gates lock).isFree then some (s.setEnding lock (some (.losing id lost)))
    else none
  | .findHold lock =>
    match (s.gates lock).ending with
    | some (.releasing token) =>
      let found := (s.manager.hold lock).filter fun own =>
        token.all fun id => own.claim.id == id
      some (s.setEnding lock (found.map fun own => .flushing own.claim.id))
    | _ => none
  | .readHead lock =>
    match (s.gates lock).ending with
    | some (.flushing id) =>
      some (s.setEnding lock (some (.marked id
        ((s.heads s.manager.origin).map fun seq => ⟨s.manager.origin, seq⟩))))
    | _ => none
  | .endHold lock now =>
    (s.endHold lock now).map fun ended =>
      (s.advance lock ended).setEnding lock (some .telling)
  | .closeGate lock =>
    match (s.gates lock).ending with
    | some .telling | some (.flushing _) => some (s.setEnding lock none)
    | _ => none
  | .breakOthers lock holder answers now =>
    some (s.advance lock (s.manager.breakOthers lock holder (gather answers) now))
  | .enter lock =>
    if !s.attempts.contains lock ∧ (s.manager.hold lock).isNone then
      some (s.setAttempt lock .entered)
    else none
  | .beginAttempt request allowBehind nonce now wall =>
    match s.attempts[request.lock]? with
    | some .entered =>
      let begun := s.manager.beginAttempt request nonce now wall
      some ((s.advance request.lock begun.1).setAttempt request.lock (.asking begun.2 allowBehind))
    | _ => none
  | .giveUp lock =>
    match s.attempts[lock]? with
    | some (.asking claim _) =>
      some ((s.advance lock (s.manager.dropAttempt lock claim.id)).dropAttempt lock)
    | some _ => some (s.dropAttempt lock)
    | none => none
  | .conclude lock answers deadline now =>
    match s.attempts[lock]? with
    | some (.asking claim allowBehind) =>
      some (s.conclude lock claim allowBehind answers deadline now)
    | _ => none
  | .pollHead lock =>
    match s.attempts[lock]? with
    | some (.awaiting id allowBehind carried marks (mark :: unseen)) =>
      some (s.setAttempt lock (.awaiting id allowBehind carried marks
        (if mark.seq ≤ s.headSeq mark.origin then unseen else marks)))
    | _ => none
  | .report lock =>
    match s.attempts[lock]? with
    | some (.awaiting id allowBehind carried _ unseen) =>
      if allowBehind || unseen.isEmpty then
        some ((s.dropAttempt lock).happens (.acquired lock id allowBehind (s.behind lock carried)))
      else none
    | _ => none
  | .startRenewal lock now =>
    (s.manager.startRenewal lock now).map fun started => s.advance lock started.1
  | .finishRenewal lock claim answers sent now =>
    some (s.advance lock (s.manager.finishRenewal lock claim (gather answers) sent now).1)
  | .renew lock token ttl payload now =>
    (s.manager.renew lock token ttl payload now).map fun renewed => s.advance lock renewed
  | .sweep now =>
    some { s with manager := { s.manager with table := s.manager.table.sweep now } }
  | .setHead origin seq => some { s with heads := Function.update s.heads origin seq }
  | .fence lock token =>
    if (s.gates lock).ending.isNone then
      some (s.setCommits lock ((s.gates lock).commits ++ [⟨token, none⟩]))
    else none
  | .check lock token now =>
    if ⟨token, none⟩ ∈ (s.gates lock).commits then
      let others := (s.gates lock).commits.erase ⟨token, none⟩
      match (s.manager.hold lock).filter fun own => own.letsThrough token now with
      | some own =>
        some ((s.setCommits lock (others ++ [⟨token, some own.limit⟩])).happens
          (.admitted lock token))
      | none => some (s.setCommits lock others)
    else none
  | .complete lock token limit now =>
    if ⟨token, some limit⟩ ∈ (s.gates lock).commits then
      some ((s.setCommits lock ((s.gates lock).commits.erase ⟨token, some limit⟩)).happens
        (.completed lock token (s.manager.hold lock) now))
    else none

/-! ## The parts of a state after each change -/

section Parts

variable (s : Node Origin) (lock other : LockName)

@[simp]
theorem setEnding_ending (ending : Option (Closing Origin)) :
    ((s.setEnding lock ending).gates other).ending =
      if other = lock then ending else (s.gates other).ending := by
  by_cases h : other = lock
  · subst h
    simp [setEnding]
  · simp [setEnding, h]

@[simp]
theorem setEnding_commits (ending : Option (Closing Origin)) :
    ((s.setEnding lock ending).gates other).commits = (s.gates other).commits := by
  by_cases h : other = lock
  · subst h
    simp [setEnding]
  · simp [setEnding, h]

@[simp]
theorem setCommits_ending (commits : List (Commit Origin)) :
    ((s.setCommits lock commits).gates other).ending = (s.gates other).ending := by
  by_cases h : other = lock
  · subst h
    simp [setCommits]
  · simp [setCommits, h]

@[simp]
theorem setCommits_commits (commits : List (Commit Origin)) :
    ((s.setCommits lock commits).gates other).commits =
      if other = lock then commits else (s.gates other).commits := by
  by_cases h : other = lock
  · subst h
    simp [setCommits]
  · simp [setCommits, h]

theorem setAttempt_attempts (attempt : Attempt Origin) :
    (s.setAttempt lock attempt).attempts[other]? =
      if lock = other then some attempt else s.attempts[other]? := by
  simp [setAttempt, TreeMap.getElem?_insert]

theorem dropAttempt_attempts :
    (s.dropAttempt lock).attempts[other]? =
      if lock = other then none else s.attempts[other]? := by
  simp [dropAttempt, TreeMap.getElem?_erase]

theorem mem_tableMarks_iff (mark : Watermark Origin) :
    mark ∈ s.tableMarks lock ↔
      ∃ at', (s.manager.marks lock)[mark.origin]? = some (mark.seq, at') := by
  simp only [tableMarks, List.mem_map, Prod.exists]
  constructor
  · rintro ⟨origin, seq, at', hmem, rfl⟩
    exact ⟨at', TreeMap.mem_toList_iff_getElem?_eq_some.mp hmem⟩
  · rintro ⟨at', h⟩
    exact ⟨mark.origin, mark.seq, at', TreeMap.mem_toList_iff_getElem?_eq_some.mpr h, rfl⟩

end Parts

end Node

end Synch.Locks
