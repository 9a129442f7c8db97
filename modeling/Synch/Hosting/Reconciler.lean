import Mathlib.Order.Compare
import Mathlib.Algebra.Group.Nat.Defs
import Mathlib.Algebra.Group.Int.Defs
import Std.Data.TreeMap.Lemmas
import Synch.Support.Fallible
import Synch.Support.Text

/-!
# The tenant reconciler

A data plane polls for the networks it hosts and for those whose storage is due for
collection.  Each pass reaps finished work and gives every idle network its next job: a
provision, a convergence, a drain, or the removal of its local directory.  Storage is
collected in tasks of their own.  Jobs run between passes, and one that has ended waits for
the next reap.

An assertion of the source that fails is an error here.  The log of starts is not part of the
source: it records what each provision, each local removal and each collection found when it
was started.
-/

namespace Synch.Hosting

open Synch.Support
open Std (TreeMap)

/-! ## Names -/

def safeName (name : String) : Bool :=
  !name.isEmpty && name.utf8ByteSize ≤ 63 &&
    name.toList.all (fun c => c.isLower || c.isDigit || c == '-') &&
    name.toList.head? != some '-' && name.toList.getLast? != some '-'

/-- The key a network is filed under. -/
def keyOf (org network : String) : String :=
  org ++ "/" ++ network

def safeNames (org network : String) : Bool :=
  safeName org && safeName network

/-- The two names of a key. -/
def splitKey (key : String) : Option (String × String) :=
  (splitOnce '/' key.toList).map fun names => (String.ofList names.1, String.ofList names.2)

structure HostedNetwork where
  org : String
  network : String
deriving DecidableEq, Repr

structure Collectable where
  org : String
  network : String
deriving DecidableEq, Repr

def HostedNetwork.key (hosted : HostedNetwork) : String :=
  keyOf hosted.org hosted.network

def HostedNetwork.namesAreSafe (hosted : HostedNetwork) : Bool :=
  safeNames hosted.org hosted.network

def Collectable.key (due : Collectable) : String :=
  keyOf due.org due.network

def Collectable.namesAreSafe (due : Collectable) : Bool :=
  safeNames due.org due.network

/-- The desired-state document. -/
structure Desired where
  networks : List HostedNetwork
  collect : List Collectable
deriving DecidableEq, Repr

/-- What the control plane answers to a poll. -/
inductive Poll where
  | unchanged
  | changed (desired : Desired)
  | unreachable
deriving DecidableEq, Repr

def Poll.answered : Poll → Bool
  | .unreachable => false
  | _ => true

/-! ## Work -/

/-- A running tenant, and whether one of its standing loops has stopped. -/
structure Tenant where
  dir : String
  failedLoop : Bool
deriving DecidableEq, Repr

inductive TenantJobKind where
  | provisioning
  | reconciling
  | draining (forget : Bool)
  | cleaningAfterPanic
  | forgetting
deriving DecidableEq, Repr

/-- What a job hands back.  A provision that failed hands back no tenant. -/
inductive TenantJobOutput where
  | provisioned (tenant : Option Tenant)
  | reconciled (tenant : Tenant)
  | drained
  | cancelled
  | cleanedAfterPanic
  | forgotten
deriving DecidableEq, Repr

inductive JobEnd where
  | returned (output : TenantJobOutput)
  | panicked
deriving DecidableEq, Repr

def TenantJobKind.endsWith : TenantJobKind → JobEnd → Bool
  | _, .panicked => true
  | .provisioning, .returned (.provisioned _) => true
  | .provisioning, .returned .cancelled => true
  | .reconciling, .returned (.reconciled _) => true
  | .draining _, .returned .drained => true
  | .cleaningAfterPanic, .returned .cleanedAfterPanic => true
  | .forgetting, .returned .forgotten => true
  | _, _ => false

structure TenantJob where
  kind : TenantJobKind
  dir : String
  done : Option JobEnd
deriving DecidableEq, Repr

/-- A collection, which a reap forgets however it ended. -/
structure CollectionJob where
  done : Bool
deriving DecidableEq, Repr

def identityPoll : Nat := 30

def maxPark : Nat := 15 * 60

def parkDecay : Nat := 30 * 60

/-- A network that is not running, and when it may try again. -/
structure Parked where
  retryAt : Nat
  since : Nat
  failures : Nat
deriving DecidableEq, Repr

/-- The park that follows one more failure. -/
def Parked.after (previous : Option Parked) (now : Nat) : Parked :=
  let failures :=
    match previous with
    | some parked =>
      if now - parked.since < parkDecay then min (parked.failures + 1) (2 ^ 32 - 1) else 1
    | none => 1
  let wait := min (identityPoll * 2 ^ min (failures - 1) 8) maxPark
  ⟨now + wait, now, failures⟩

/-- The park of a tenant that lost a standing loop, whose first restart does not wait. -/
def Parked.afterLoop (previous : Option Parked) (now : Nat) : Parked :=
  let park := Parked.after previous now
  if park.failures = 1 then { park with retryAt := park.since } else park

/-! ## The reconciler -/

/-- How the metadata of a path reads. -/
inductive Metadata where
  | present
  | missing
  | unreadable
deriving DecidableEq, Repr

/-- What was found at a start: whether a collection of the key was running, or for a
collection the poll and the document of its pass and the network's local directory. -/
inductive Start where
  | provision (key : String) (collecting : Bool)
  | removal (key : String) (collecting : Bool)
  | collection (key : String) (poll : Poll) (desired : Desired) (directory : Metadata)
deriving DecidableEq, Repr

structure Reconciler where
  baseDir : String
  tenants : TreeMap String Tenant
  jobs : TreeMap String TenantJob
  collections : TreeMap String CollectionJob
  parked : TreeMap String Parked
  wanted : List String
  emptyAnswers : Nat
  last : Option Desired
  directories : String → Metadata
  started : List Start

/-- How many empty answers in a row drain every tenant. -/
def emptySetConfirmations : Nat := 3

namespace Reconciler

def new (baseDir : String) (directories : String → Metadata) : Reconciler where
  baseDir := baseDir
  tenants := ∅
  jobs := ∅
  collections := ∅
  parked := ∅
  wanted := []
  emptyAnswers := 0
  last := none
  directories := directories
  started := []

variable (r : Reconciler)

def tenantDir (org network : String) : String :=
  r.baseDir ++ "/tenants/" ++ org ++ "/" ++ network

/-! ### Starting jobs -/

variable (key : String)

def startJob (kind : TenantJobKind) (dir : String) : Except String Reconciler :=
  if key ∈ r.jobs then .error "one job per tenant"
  else .ok { r with jobs := r.jobs.insert key ⟨kind, dir, none⟩ }

def logged (start : Start) : Reconciler :=
  { r with started := start :: r.started }

def startProvision (hosted : HostedNetwork) : Except String Reconciler :=
  (r.logged (.provision key (r.collections.contains key))).startJob key .provisioning
    (r.tenantDir hosted.org hosted.network)

def startReconcile (tenant : Tenant) : Except String Reconciler :=
  r.startJob key .reconciling tenant.dir

def startDrain (tenant : Tenant) (forget : Bool) : Except String Reconciler :=
  r.startJob key (.draining forget) tenant.dir

def startCleanupBarrier (key dir : String) : Except String Reconciler :=
  r.startJob key .cleaningAfterPanic dir

def startForget (key dir : String) : Except String Reconciler :=
  (r.logged (.removal key (r.collections.contains key))).startJob key .forgetting dir

variable (now : Nat)

def park : Reconciler :=
  { r with parked := r.parked.insert key (.after r.parked[key]? now) }

/-! ### Reaping -/

/-- Waits out a failed provision if the network is still wanted, and else retires its local
copy. -/
def parkOrForget (key dir : String) (now : Nat) : Except String Reconciler :=
  if key ∈ r.wanted then .ok (r.park key now) else r.startForget key dir

/-- What becomes of a slot whose job has been taken out. -/
def settle (job : TenantJob) (now : Nat) :
    JobEnd → Except String Reconciler
  | .returned (.provisioned (some tenant)) =>
    .ok { r with tenants := r.tenants.insert key tenant }
  | .returned (.provisioned none) => r.parkOrForget key job.dir now
  | .returned (.reconciled tenant) => .ok { r with tenants := r.tenants.insert key tenant }
  | .returned .drained =>
    -- intent may have changed while the drain ran
    if job.kind = .draining true ∨ key ∉ r.wanted then r.startForget key job.dir else .ok r
  | .returned .cleanedAfterPanic => r.parkOrForget key job.dir now
  | .returned .forgotten => .ok { r with parked := r.parked.erase key }
  | .returned .cancelled => .ok r
  | .panicked =>
    if job.kind = .forgetting then r.startForget key job.dir
    else r.startCleanupBarrier key job.dir

def reapJob (r : Reconciler) (finished : String × JobEnd) : Except String Reconciler :=
  match r.jobs[finished.1]? with
  | none => .ok r
  | some job =>
    ({ r with jobs := r.jobs.erase finished.1 } : Reconciler).settle finished.1 job now finished.2

def reapFinishedJobs : Except String Reconciler :=
  (r.jobs.toList.filterMap fun entry => entry.2.done.map fun done => (entry.1, done)).foldlM
    (reapJob now) r

def reapFinishedCollections : Reconciler :=
  { r with
    collections :=
      ((r.collections.toList.filter fun entry => entry.2.done).map Prod.fst).foldl
        TreeMap.erase r.collections }

def reapKnownJobs : Except String Reconciler :=
  (r.reapFinishedJobs now).map reapFinishedCollections

/-! ### One pass -/

/-- The networks a document asks this shard to host, the last of two with one key. -/
def wantedOf (desired : Desired) : TreeMap String HostedNetwork :=
  TreeMap.ofList ((desired.networks.filter HostedNetwork.namesAreSafe).map
    fun hosted => (hosted.key, hosted))

def collectableOf (desired : Desired) : List Collectable :=
  desired.collect.filter Collectable.namesAreSafe

def drainGone : Except String Reconciler :=
  match r.tenants[key]? with
  | some tenant =>
    (({ r with tenants := r.tenants.erase key } : Reconciler).startDrain key tenant true).map
      fun r => { r with parked := r.parked.erase key }
  | none => .ok { r with parked := r.parked.erase key }

def forgetAbandoned : Except String Reconciler :=
  let r : Reconciler := { r with parked := r.parked.erase key }
  if key ∈ r.jobs then .ok r
  else
    match splitKey key with
    | some (org, network) => r.startForget key (r.tenantDir org network)
    | none => .error "validated tenant keys contain one slash"

def restartFailing (r : Reconciler) (key : String) : Except String Reconciler :=
  let r : Reconciler :=
    { r with parked := r.parked.insert key (.afterLoop r.parked[key]? now) }
  match r.tenants[key]? with
  | some tenant =>
    ({ r with tenants := r.tenants.erase key } : Reconciler).startDrain key tenant false
  | none => .ok r

def reconcileStanding : Except String Reconciler :=
  match r.tenants[key]? with
  | some tenant => ({ r with tenants := r.tenants.erase key } : Reconciler).startReconcile key tenant
  | none => .ok r

def provisionWanted (r : Reconciler) (entry : String × HostedNetwork) : Except String Reconciler :=
  if entry.1 ∈ r.tenants ∨ entry.1 ∈ r.jobs ∨ entry.1 ∈ r.collections then .ok r
  else if r.parked[entry.1]?.any fun parked => now < parked.retryAt then .ok r
  else r.startProvision entry.1 entry.2

variable (poll : Poll)

def collect (desired : Desired) (r : Reconciler) (due : Collectable) : Except String Reconciler :=
  if due.key ∈ r.tenants ∨ due.key ∈ r.jobs then .ok r
  else if due.key ∈ r.collections then .ok r
  else
    let directory := r.tenantDir due.org due.network
    match r.directories directory with
    | .present => r.startForget due.key directory
    | .unreadable => .ok r
    | .missing =>
      .ok { r.logged (.collection due.key poll desired .missing) with
        collections := r.collections.insert due.key ⟨false⟩ }

def startCollections (desired : Desired) : Except String Reconciler :=
  (collectableOf desired).foldlM (collect poll desired) r

/-- The part of a pass that acts on intent. -/
def act (desired : Desired) (fresh : Bool) (now : Nat) : Except String Reconciler := do
  let wanted := wantedOf desired
  let r := { r with wanted := wanted.keys }
  let r ← (r.tenants.keys.filter (· ∉ wanted)).foldlM drainGone r
  let r ← (r.parked.keys.filter (· ∉ wanted)).foldlM forgetAbandoned r
  let r ← ((r.tenants.toList.filter fun entry => entry.2.failedLoop).map Prod.fst).foldlM
    (restartFailing now) r
  let r ← (r.tenants.keys.filter (· ∈ wanted)).foldlM reconcileStanding r
  let r ← wanted.toList.foldlM (provisionWanted now) r
  if fresh then r.startCollections poll desired else .ok r

/-- One more empty set, which only a fresh answer confirms. -/
def countEmpty (fresh : Bool) : Reconciler :=
  if fresh then { r with emptyAnswers := min (r.emptyAnswers + 1) (2 ^ 32 - 1) } else r

/-- An empty set while tenants are active waits until several fresh answers agree. -/
def pass (desired : Desired) (fresh : Bool) (now : Nat) : Except String Reconciler := do
  let r ← r.reapKnownJobs now
  if (wantedOf desired).isEmpty ∧ 0 < r.tenants.size + r.jobs.size then
    let r := r.countEmpty fresh
    if r.emptyAnswers < emptySetConfirmations then .ok r
    else r.act poll desired fresh now
  else
    ({ r with emptyAnswers := 0 } : Reconciler).act poll desired fresh now

/-- The document to act on and whether the control plane answered for it in this pass.  The
cache is read only when no document has been answered yet, and may be unreadable. -/
def desired (cached : Option (Option Desired)) : Option (Option (Desired × Bool)) × Reconciler :=
  match poll with
  | .changed answer => (some (some (answer, true)), { r with last := some answer })
  | .unchanged =>
    match r.last with
    | some answer => (some (some (answer, true)), r)
    | none => (cached.map fun document => document.map (·, false), r)
  | .unreachable =>
    match r.last with
    | some answer => (some (some (answer, false)), r)
    | none => (cached.map fun document => document.map (·, false), r)

def tick (cached : Option (Option Desired)) (now : Nat) : Except String Reconciler :=
  match r.desired poll cached with
  | (some (some (document, fresh)), r) => r.pass poll document fresh now
  | (_, r) => .ok r

end Reconciler

inductive Event where
  | tick (poll : Poll) (cached : Option (Option Desired)) (now : Nat)
  /-- A finished job rings the bell between two polls. -/
  | wake (now : Nat)
  | jobEnds (key : String) (done : JobEnd)
  | collectionEnds (key : String)
  | loopStops (key : String)
  | directory (path : String) (metadata : Metadata)
deriving DecidableEq, Repr

inductive World where
  | running (r : Reconciler)
  | panicked (message : String)

def World.of : Except String Reconciler → World
  | .ok r => .running r
  | .error message => .panicked message

def step : World → Event → Option World
  | .panicked _, _ => none
  | .running r, .tick poll cached now => some (.of (r.tick poll cached now))
  | .running r, .wake now => some (.of (r.reapKnownJobs now))
  | .running r, .jobEnds key done =>
    r.jobs[key]?.bind fun job =>
      if job.done = none ∧ job.kind.endsWith done then
        some (.running { r with jobs := r.jobs.insert key { job with done := some done } })
      else none
  | .running r, .collectionEnds key =>
    if key ∈ r.collections then
      some (.running { r with collections := r.collections.insert key ⟨true⟩ })
    else none
  | .running r, .loopStops key =>
    r.tenants[key]?.map fun tenant =>
      .running { r with tenants := r.tenants.insert key { tenant with failedLoop := true } }
  | .running r, .directory path metadata =>
    some (.running { r with directories := Function.update r.directories path metadata })

end Synch.Hosting
