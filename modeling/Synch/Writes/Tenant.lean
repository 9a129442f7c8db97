import Mathlib.Algebra.BigOperators.Group.Finset.Basic
import Mathlib.Algebra.GroupWithZero.Nat
import Synch.Hash
import Synch.Support.Run

/-!
# The writes of one tenant

Every write of a tenant takes room out of one staging budget before any byte moves, is
measured once against the org's storage budget, and then streams its bytes.  Its commit runs
in a task of its own, which a cancellation of the write does not reach.  The tasks of any
number of writes interleave at every shared access: each load and exchange of the staging
counter, each replica the measurement reads, the ingest and the publication of a commit.
-/

namespace Synch.Writes

open Synch.Support

/-- The greatest value of a 64-bit counter. -/
def maxCount : Nat := 2 ^ 64 - 1

def saturatingAdd (a b : Nat) : Nat :=
  min (a + b) maxCount

/-- The seconds without a frame after which a write is abandoned. -/
def writeIdle : Nat := 60

/-- A coded refusal of one request. -/
structure Refusal where
  code : String
  message : String
deriving DecidableEq, Repr

/-! ## What a tenant holds -/

structure Entry where
  origin : String
  space : String
  path : String
  content : Option Hash
deriving DecidableEq, Repr

/-- The tables that a tenant's coverage is read from: the entries of its view, the sizes of
the objects that are durable, and the claims of its replicas. -/
structure Store where
  /-- The origin this node publishes as. -/
  own : String
  replicas : List String
  replicas_nodup : replicas.Nodup
  entries : List Entry
  blobs : Hash → Option Nat
  pins : Finset (String × Hash)

namespace Store

variable (store : Store)

/-- The bytes a pinned root accounts for: none once its row has gone. -/
def blobSize (root : Hash) : Nat :=
  (store.blobs root).getD 0

variable (space : String)

/-- The bytes one replica holds. -/
def replicaCoverage : Nat :=
  ∑ pin ∈ store.pins with pin.1 = space, store.blobSize pin.2

def heldBytes : Nat :=
  (store.replicas.map store.replicaCoverage).sum

/-- The content of a space that is durable already and so needs a claim, not a fetch. -/
def durableContent : List (String × Hash) :=
  store.entries.filterMap fun entry =>
    if entry.space = space then
      entry.content.bind fun root => (store.blobs root).map fun _ => (space, root)
    else none

def stageSpaceWants : Store :=
  { store with pins := store.pins ∪ (store.durableContent space).toFinset }

/-- A claim whose retention has run out. -/
def release (root : Hash) : Store :=
  { store with pins := store.pins.erase (space, root) }

/-- An entry that leaves the view. -/
def retract (entry : Entry) : Store :=
  { store with entries := store.entries.filter (· ≠ entry) }

/-- The row of an ingested object, kept when the object was durable already. -/
def ingest (root : Hash) (size : Nat) : Store :=
  { store with
    blobs := Function.update store.blobs root (some ((store.blobs root).getD size)) }

/-- This node's entry at a path, in place of the one it had there. -/
def publish (space path : String) (root : Hash) : Store :=
  { store with
    entries :=
      ⟨store.own, space, path, some root⟩ :: store.entries.filter fun entry =>
          ¬(entry.origin = store.own ∧ entry.space = space ∧ entry.path = path) }

end Store

/-! ## One write -/

inductive Outcome where
  | committed
  | refused (refusal : Refusal)
  | cancelled
deriving DecidableEq, Repr

/-- How far the task that a commit runs in has come. -/
inductive CommitTask where
  | ingesting
  | publishing (root : Hash)
  | finished (outcome : Outcome)
deriving DecidableEq, Repr

/-- How far the task of a write has come.  A commit task outlives the write that is cancelled
while it runs. -/
inductive Phase where
  | starting
  /-- Inside the reservation loop, with the free room it last saw. -/
  | reserving (seen : Nat)
  | reserved
  /-- Totalling the replicas, with those still to read. -/
  | measuring (rest : List String) (held : Nat)
  | admitted
  | streaming (received : Nat)
  | committing (task : CommitTask)
  | ended (outcome : Outcome) (task : Option CommitTask)
deriving DecidableEq, Repr

namespace Phase

def task : Phase → Option CommitTask
  | .committing task => some task
  | .ended _ task => task
  | _ => none

def setTask (next : CommitTask) : Phase → Phase
  | .committing _ => .committing next
  | .ended outcome _ => .ended outcome (some next)
  | phase => phase

end Phase

structure Write where
  space : String
  path : String
  size : Nat
  phase : Phase
deriving DecidableEq, Repr

namespace Write

/-- The staging room a write has taken and not given back. -/
def reservation (write : Write) : Nat :=
  match write.phase with
  | .starting | .reserving _ | .ended _ _ => 0
  | _ => write.size

def Ended (write : Write) : Prop :=
  ∃ outcome task, write.phase = .ended outcome task

end Write

/-! ## The tenant -/

/-- A tenant with its limits, its staging counter and every write it has taken. -/
structure Tenant where
  store : Store
  staging : Nat
  budgetBytes : Nat
  free : Nat
  writes : List Write

namespace Tenant

def reservedBytes (tenant : Tenant) : Nat :=
  (tenant.writes.map Write.reservation).sum

def advance (tenant : Tenant) (i : Nat) (write : Write) : Tenant :=
  { tenant with writes := tenant.writes.set i write }

/-- The end of a write's task, which drops its reservation. -/
def finish (tenant : Tenant) (i : Nat) (write : Write) (outcome : Outcome) : Tenant :=
  { tenant.advance i { write with phase := .ended outcome write.phase.task } with
    free := (tenant.free + write.reservation) % 2 ^ 64 }

/-- One turn of the reservation loop.  A weak exchange may fail although the counter still
has the value the loop saw. -/
def exchange (tenant : Tenant) (i : Nat) (write : Write) (seen : Nat) (spurious : Bool) :
    Tenant :=
  let size := write.size
  let free := tenant.free
  if seen < size then
    tenant.finish i write (.refused ⟨"unavailable",
      s!"this tenant has {free} bytes of staging room and the write needs {size}"⟩)
  else if spurious ∨ free ≠ seen then
    tenant.advance i { write with phase := .reserving free }
  else
    { tenant.advance i { write with phase := .reserved } with free := seen - size }

/-- The start of the measurement, which an org without a budget skips. -/
def measure (tenant : Tenant) (i : Nat) (write : Write) : Tenant :=
  if tenant.budgetBytes = 0 then tenant.advance i { write with phase := .admitted }
  else tenant.advance i { write with phase := .measuring tenant.store.replicas 0 }

def check (tenant : Tenant) (i : Nat) (write : Write) (held : Nat) : Tenant :=
  let size := write.size
  let budget := tenant.budgetBytes
  if budget < saturatingAdd held size then
    tenant.finish i write (.refused ⟨"over-budget",
      s!"this network holds {held} bytes of a {budget}-byte budget; the write needs {size}"⟩)
  else
    tenant.advance i { write with phase := .admitted }

/-- The gates of the engine and the opening of the tree write. -/
def openWrite (tenant : Tenant) (i : Nat) (write : Write) (refused : Option Refusal) : Tenant :=
  let space := write.space
  match refused with
  | some refusal => tenant.finish i write (.refused refusal)
  | none =>
    if space ∈ tenant.store.replicas then
      tenant.advance i { write with phase := .streaming 0 }
    else
      tenant.finish i write (.refused ⟨"not-found", s!"this network has no space {space}"⟩)

def chunk (tenant : Tenant) (i : Nat) (write : Write) (before length : Nat)
    (refused : Option Refusal) : Tenant :=
  let size := write.size
  let received := saturatingAdd before length
  if size < received then
    tenant.finish i write (.refused ⟨"invalid", s!"the write announced {size} bytes and sent more"⟩)
  else
    match refused with
    | some refusal => tenant.finish i write (.refused refusal)
    | none => tenant.advance i { write with phase := .streaming received }

def commit (tenant : Tenant) (i : Nat) (write : Write) (received : Nat) : Tenant :=
  let size := write.size
  if received ≠ size then
    tenant.finish i write (.refused ⟨"invalid",
      s!"the write announced {size} bytes and sent {received}"⟩)
  else
    tenant.advance i { write with phase := .committing .ingesting }

end Tenant

/-! ## Steps -/

/-- What the two tasks of one write do next.  What the engine answers is part of the action. -/
inductive Action where
  | load
  | exchange (spurious : Bool)
  | measure
  | count
  | coverageFails (refusal : Refusal)
  | check
  | opened (refused : Option Refusal)
  | chunk (length : Nat) (refused : Option Refusal)
  | idle
  | closed
  | commit
  | ingest (root : Hash)
  | publish
  | commitFails (refusal : Refusal)
  | report
  | abort
deriving DecidableEq, Repr

inductive Event where
  | put (space path : String) (size : Nat)
  | act (i : Nat) (action : Action)
  /-- The standing loop claims what a space names and this node has. -/
  | sweep (space : String)
  | release (space : String) (root : Hash)
  | retract (entry : Entry)
deriving DecidableEq, Repr

namespace Tenant

/-- A step of the task that runs the write. -/
def actTask (tenant : Tenant) (i : Nat) (write : Write) : Action → Phase → Option Tenant
  | .load, .starting => some (tenant.advance i { write with phase := .reserving tenant.free })
  | .exchange spurious, .reserving seen => some (tenant.exchange i write seen spurious)
  | .measure, .reserved => some (tenant.measure i write)
  | .count, .measuring (space :: rest) held =>
    let held := saturatingAdd held (tenant.store.replicaCoverage space)
    some (tenant.advance i { write with phase := .measuring rest held })
  | .coverageFails refusal, .measuring _ _ => some (tenant.finish i write (.refused refusal))
  | .check, .measuring [] held => some (tenant.check i write held)
  | .opened refused, .admitted => some (tenant.openWrite i write refused)
  | .chunk length refused, .streaming received =>
    some (tenant.chunk i write received length refused)
  | .idle, .streaming _ =>
    let seconds := writeIdle
    some (tenant.finish i write (.refused ⟨"unavailable",
      s!"the write was idle for {seconds}s and was abandoned"⟩))
  | .closed, .streaming _ => some (tenant.finish i write .cancelled)
  | .commit, .streaming received => some (tenant.commit i write received)
  | .report, .committing (.finished outcome) => some (tenant.finish i write outcome)
  | .abort, .ended _ _ => none
  | .abort, _ => some (tenant.finish i write .cancelled)
  | _, _ => none

/-- A step of the task that runs the commit.  An object is published only at the size its row
records. -/
def actCommit (tenant : Tenant) (i : Nat) (write : Write) : Action → CommitTask → Option Tenant
  | .ingest root, .ingesting =>
    some { tenant.advance i { write with phase := write.phase.setTask (.publishing root) } with
      store := tenant.store.ingest root write.size }
  | .publish, .publishing root =>
    if tenant.store.blobs root = some write.size then
      some
        { tenant.advance i { write with phase := write.phase.setTask (.finished .committed) } with
          store := tenant.store.publish write.space write.path root }
    else none
  | .commitFails refusal, .ingesting
  | .commitFails refusal, .publishing _ =>
    some (tenant.advance i
      { write with phase := write.phase.setTask (.finished (.refused refusal)) })
  | _, _ => none

def act (tenant : Tenant) (i : Nat) (write : Write) (action : Action) : Option Tenant :=
  match action with
  | .ingest _ | .publish | .commitFails _ =>
    write.phase.task.bind fun task => tenant.actCommit i write action task
  | _ => tenant.actTask i write action write.phase

end Tenant

def step (tenant : Tenant) : Event → Option Tenant
  | .put space path size =>
    if size ≤ maxCount then
      some { tenant with writes := tenant.writes ++ [⟨space, path, size, .starting⟩] }
    else none
  | .act i action => tenant.writes[i]?.bind fun write => tenant.act i write action
  | .sweep space =>
    if space ∈ tenant.store.replicas then
      some { tenant with store := tenant.store.stageSpaceWants space }
    else none
  | .release space root => some { tenant with store := tenant.store.release space root }
  | .retract entry => some { tenant with store := tenant.store.retract entry }

end Synch.Writes
