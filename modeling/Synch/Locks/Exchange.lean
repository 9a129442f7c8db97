import Synch.Locks.Manager
import Synch.Support.Run

/-!
# The lock exchange among many nodes

A world holds the manager of every node and the messages in flight.  Claims and
renewals are exchanges that wait for the answers of their targets; ends are
announcements.  Recording a message and answering it is one action, as it is
one critical section of the source; everything else interleaves freely.

The actions leave out what the exclusion argument excludes: a claim or renewal
is only delivered where it is answered with the table, no claim is broken, and
a tick only happens while no observed lease has run out.
-/

namespace Synch.Locks

open Std (TreeMap)
open Synch.Support

variable {Origin : Type} [LinearOrder Origin]

inductive ExchangeKind where
  | claim
  | renewal
deriving DecidableEq, Repr

/-- A claim or renewal on its way, with the answers gathered so far. -/
structure Exchange (Origin : Type) [LinearOrder Origin] where
  sender : Origin
  lock : LockName
  kind : ExchangeKind
  claim : Claim Origin
  waiting : List Origin
  gathered : Gathered Origin
  sent : Instant
  ttl : Duration

structure Ending (Origin : Type) where
  sender : Origin
  lock : LockName
  id : ClaimId Origin
  reason : EndReason
  watermark : Option (Watermark Origin)
  waiting : List Origin

/-- A claim of a node that one of its operations is about to end. -/
structure Doomed (Origin : Type) where
  node : Origin
  lock : LockName
  id : ClaimId Origin
  lost : Option (Lost Origin)

/-- Who takes part, and who may write which space. -/
structure Cluster (Origin : Type) where
  members : List Origin
  mayWrite : Origin → String → Bool

namespace Cluster

variable (cluster : Cluster Origin)

/-- The peers that may contend for a lock with a node. -/
def targets (n : Origin) (lock : LockName) : List Origin :=
  cluster.members.filter fun m => m != n && cluster.mayWrite m lock.space

/-- The origins a peer speaks for that may write the lock's space. -/
def writerOrigins (n : Origin) (lock : LockName) : List Origin :=
  if cluster.mayWrite n lock.space then [n] else []

/-- The members that may contend for a lock. -/
def Contender (lock : LockName) (n : Origin) : Prop :=
  n ∈ cluster.members ∧ cluster.mayWrite n lock.space = true

end Cluster

/-- The managers, the messages in flight, the claims about to end, and the ids
taken so far. -/
structure World (Origin : Type) [LinearOrder Origin] where
  node : Origin → Manager Origin
  exchanges : List (Exchange Origin) := []
  endings : List (Ending Origin) := []
  doomed : List (Doomed Origin) := []
  used : List (ClaimId Origin) := []

inductive Action (Origin : Type) where
  | acquire (n : Origin) (request : LockRequest) (nonce : UInt64) (now : Instant) (wall : Int)
  | failSave (i : Nat)
  | deliver (i : Nat) (m : Origin) (now : Instant)
  | conclude (i : Nat) (now : Instant)
  | abandon (i : Nat)
  | startRenewal (n : Origin) (lock : LockName) (now : Instant)
  | finishRenewal (i : Nat) (now : Instant)
  | lose (i : Nat) (now : Instant)
  | beginRelease (n : Origin) (lock : LockName)
  | endRelease (i : Nat) (watermark : Option (Watermark Origin)) (now : Instant)
  | deliverEnd (i : Nat) (m : Origin) (now : Instant)
  | renew (n : Origin) (lock : LockName) (token : ClaimId Origin)
      (ttl : Option Duration) (payload : Option (List UInt8)) (now : Instant)
  | tick (n : Origin) (now : Instant)

namespace World

variable (w : World Origin)

def entry (n : Origin) (lock : LockName) : Entry Origin :=
  (w.node n).table.entry lock

/-- Continue with another manager at one node. -/
def setNode (n : Origin) (manager : Manager Origin) : World Origin :=
  { w with node := Function.update w.node n manager }

/-- A node is past contention on a lock. -/
def holds (n : Origin) (lock : LockName) : Bool :=
  (w.entry n lock).own.any Own.isHeld

/-- No lease a node observes has run out. -/
def leasesLast (n : Origin) (now : Instant) : Bool :=
  (valuesOf (w.node n).table.locks).all fun entry =>
    (valuesOf entry.observed).all fun o => decide (now < o.deadline)

/-- An attempt of the node on the lock is running. -/
def attempting (n : Origin) (lock : LockName) : Bool :=
  w.exchanges.any fun x => x.kind == .claim && x.sender == n && x.lock == lock

variable (cluster : Cluster Origin)

/-- Send a claim or renewal to every target. -/
def send (n : Origin) (lock : LockName)
    (kind : ExchangeKind) (claim : Claim Origin) (sent : Instant)
    (ttl : Duration) : World Origin :=
  { w with
    exchanges :=
      { sender := n, lock := lock, kind := kind, claim := claim
        waiting := cluster.targets n lock, gathered := {}, sent := sent
        ttl := ttl } :: w.exchanges }

def announce (n : Origin) (lock : LockName)
    (id : ClaimId Origin) (reason : EndReason)
    (watermark : Option (Watermark Origin)) : World Origin :=
  { w with
    endings :=
      { sender := n, lock := lock, id := id, reason := reason
        watermark := watermark, waiting := cluster.targets n lock } :: w.endings }

/-- A peer answered: fold its answer in and wait for one peer less. -/
def answered (i : Nat) (x : Exchange Origin) (m : Origin)
    (reports : List (Report Origin)) (ended : List (ClaimId Origin × EndReason))
    (watermarks : List (Watermark Origin)) : World Origin :=
  { w with
    exchanges := w.exchanges.set i
      { x with
        waiting := x.waiting.filter fun p => p != m
        gathered := x.gathered.add reports ended watermarks } }

variable [ToString Origin]

/-- One action of the system. -/
def step (cluster : Cluster Origin) (w : World Origin) :
    Action Origin → Option (World Origin)
  | .acquire n request nonce now wall =>
    let begun := (w.node n).beginAttempt request nonce now wall
    if n ∈ cluster.members ∧ cluster.mayWrite n request.lock.space = true ∧
        (w.entry n request.lock).own.isNone = true ∧
        w.attempting n request.lock = false ∧ begun.2.id ∉ w.used then
      let claimed := (w.setNode n begun.1).send cluster n request.lock .claim
        begun.2 now request.ttl
      some { claimed with used := begun.2.id :: w.used }
    else
      none
  | .failSave i =>
    (w.exchanges[i]?).bind fun x =>
      if x.kind = .claim ∧ x.waiting = cluster.targets x.sender x.lock then
        some { w.setNode x.sender
            ((w.node x.sender).dropAttempt x.lock x.claim.id) with
          exchanges := w.exchanges.eraseIdx i }
      else
        none
  | .deliver i m now =>
    (w.exchanges[i]?).bind fun x =>
      if m ∈ x.waiting then
        let recorded := (w.node m).record (cluster.writerOrigins x.sender x.lock)
          x.lock x.claim (x.kind == .renewal) now
        match recorded.2 with
        | .answer reports ended watermarks =>
          some ((w.setNode m recorded.1).answered i x m reports ended watermarks)
        | _ => none
      else
        none
  | .conclude i now =>
    (w.exchanges[i]?).bind fun x =>
      if x.kind = .claim ∧ x.waiting = [] then
        let decided := (w.node x.sender).concludeAttempt x.lock x.claim x.gathered
          (x.sent + x.ttl) now
        let settled := { w.setNode x.sender decided.1 with
          exchanges := w.exchanges.eraseIdx i }
        match decided.2 with
        | .withdraw _ _ =>
          some (settled.announce cluster x.sender x.lock x.claim.id .withdrawn none)
        | .hold | .broken => some settled
      else
        none
  | .abandon i => some { w with exchanges := w.exchanges.eraseIdx i }
  | .startRenewal n lock now =>
    ((w.node n).startRenewal lock now).map fun started =>
      (w.setNode n started.1).send cluster n lock .renewal started.2 now 0
  | .finishRenewal i now =>
    (w.exchanges[i]?).bind fun x =>
      if x.kind = .renewal ∧ x.waiting = [] then
        let healed := (w.node x.sender).finishRenewal x.lock x.claim x.gathered x.sent now
        some { w.setNode x.sender healed.1 with
          exchanges := w.exchanges.eraseIdx i
          doomed := match healed.2 with
            | none => w.doomed
            | some lost => ⟨x.sender, x.lock, x.claim.id, some lost⟩ :: w.doomed }
      else
        none
  | .lose i now =>
    (w.doomed[i]?).bind fun d => d.lost.map fun lost =>
      let lostWorld := { w.setNode d.node ((w.node d.node).lose d.lock d.id lost now) with
        doomed := w.doomed.eraseIdx i }
      match lost with
      | .ended _ => lostWorld
      | .superseded _ =>
        if (w.node d.node).owns d.lock d.id then
          lostWorld.announce cluster d.node d.lock d.id .superseded none
        else lostWorld
  | .beginRelease n lock =>
    (w.entry n lock).own.map fun own =>
      { w with doomed := ⟨n, lock, own.claim.id, none⟩ :: w.doomed }
  | .endRelease i watermark now =>
    (w.doomed[i]?).bind fun d =>
      if d.lost = none then
        some (({ w.setNode d.node
            ((w.node d.node).endRelease d.lock d.id watermark now) with
          doomed := w.doomed.eraseIdx i } : World Origin).announce cluster d.node
            d.lock d.id .released watermark)
      else
        none
  | .deliverEnd i m now =>
    (w.endings[i]?).bind fun e =>
      if m ∈ e.waiting then
        some { w.setNode m ((w.node m).recordEnd
            (cluster.writerOrigins e.sender e.lock) e.lock e.id e.reason
            e.watermark now).1 with
          endings := w.endings.set i { e with waiting := e.waiting.filter fun p => p != m } }
      else
        none
  | .renew n lock token ttl payload now =>
    ((w.node n).renew lock token ttl payload now).map fun renewed =>
      w.setNode n renewed
  | .tick n now =>
    if w.leasesLast n now then
      some (w.setNode n { w.node n with table := (w.node n).table.sweep now })
    else
      none

end World

/-- Every node starts with an empty table and some clock. -/
def World.init (clock : Origin → UInt64) : World Origin where
  node n := { origin := n, table := { clock := clock n } }

end Synch.Locks
