import Synch.Hosting.Exclusion

/-!
# An empty set that is not confirmed

A document that hosts nothing on this shard is acted on only after several polls in a row have
said so, because it is what every mistake at once looks like.  The guard counts the tenants that
run and those in a job.  Networks that are only parked are not counted, so a single empty document
removes their local directories.
-/

namespace Synch.Hosting

open List Synch.Support
open Std (TreeMap)

/-! ## Retirement -/

def JobEnd.handsBack : JobEnd → Bool
  | .returned (.provisioned (some _)) | .returned (.reconciled _) => true
  | _ => false

/-- The job leaves its network parked, if that is still wanted. -/
def JobEnd.mayPark : JobEnd → Bool
  | .returned (.provisioned none) | .returned .cleanedAfterPanic => true
  | _ => false

/-- Whatever is wanted, the network runs or has a job again once this end is reaped. -/
def JobEnd.stays (done : JobEnd) : Bool :=
  done.handsBack || done == .panicked

theorem JobEnd.stays_of_mayPark : ∀ {done : JobEnd}, done.mayPark = true → done.stays = false
  | .returned (.provisioned none), _ => rfl
  | .returned .cleanedAfterPanic, _ => rfl

/-- A removal hands back no tenant and parks nothing. -/
theorem JobEnd.of_forgetting : ∀ {done : JobEnd}, TenantJobKind.endsWith .forgetting done = true →
    done.handsBack = false ∧ done.mayPark = false
  | .returned .forgotten, _ => ⟨rfl, rfl⟩
  | .panicked, _ => ⟨rfl, rfl⟩

namespace Reconciler

/-- The network runs, is in a job, or is parked. -/
def Held (r : Reconciler) (key : String) : Prop :=
  key ∈ r.tenants ∨ key ∈ r.jobs ∨ key ∈ r.parked

/-- The network is drained for good, or its local directory is removed. -/
def Retiring (r : Reconciler) (key : String) : Prop :=
  ∃ job, r.jobs[key]? = some job ∧ (job.kind = .draining true ∨ job.kind = .forgetting)

variable (r : Reconciler)

/-- Something still runs when a pass has reaped: a tenant, or a job that is not finished or whose
end keeps its network here. -/
def Occupied : Prop :=
  r.tenants.isEmpty = false ∨ (r.jobs.toList.any fun entry => entry.2.done.all JobEnd.stays) = true

/-- Nothing is parked when a pass has reaped. -/
def Unparked : Prop :=
  r.parked.isEmpty = true ∧ (r.jobs.toList.all fun entry => !entry.2.done.any JobEnd.mayPark) = true

instance (r : Reconciler) : Decidable r.Occupied :=
  inferInstanceAs (Decidable (_ ∨ _))

instance (r : Reconciler) : Decidable r.Unparked :=
  inferInstanceAs (Decidable (_ ∧ _))

/-- Whether a poll was answered, and what was answered hosts nothing here. -/
def saysEmpty : Poll → Bool
  | .changed desired => (wantedOf desired).isEmpty
  | .unchanged => r.last.any fun desired => (wantedOf desired).isEmpty
  | .unreachable => false

def documentOf : Event → Option Desired
  | .tick poll cached _ => ((r.desired poll cached).1.join).map Prod.fst
  | _ => none

end Reconciler

/-- The world, and how many polls have been answered with an empty set since a document that was
not empty. -/
structure Watched where
  world : World
  confirmations : Nat

variable (watched : Watched)

/-- The count after an event. -/
def Watched.tally (event : Event) : Nat :=
  match watched.world, event with
  | .running r, .tick poll cached now =>
    match r.documentOf (.tick poll cached now) with
    | some document =>
      if (Reconciler.wantedOf document).isEmpty = false then 0
      else if r.saysEmpty poll then watched.confirmations + 1
      else watched.confirmations
    | none => watched.confirmations
  | _, _ => watched.confirmations

def watch (event : Event) : Option Watched :=
  (step watched.world event).map fun next => ⟨next, watched.tally event⟩

def Watched.new (baseDir : String) (directories : String → Metadata) : Watched :=
  ⟨.running (.new baseDir directories), 0⟩

/-- A tick that sees an empty set has it confirmed, or finds something running, or finds nothing
parked. -/
def Sheltered (event : Event) : Prop :=
  match watched.world with
  | .running r =>
    match r.documentOf event with
    | some document => (Reconciler.wantedOf document).isEmpty = true →
        emptySetConfirmations ≤ watched.tally event ∨ r.Occupied ∨ r.Unparked
    | none => True
  | .panicked _ => True

instance (watched : Watched) (event : Event) : Decidable (Sheltered watched event) := by
  unfold Sheltered
  split
  · split
    · infer_instance
    · infer_instance
  · infer_instance

/-! ## What a start changes -/

namespace Reconciler

/-- A job was given to a network, and nothing else changed but the log. -/
structure Started (r next : Reconciler) (key : String) (kind : TenantJobKind) : Prop where
  wanted : next.wanted = r.wanted
  emptyAnswers : next.emptyAnswers = r.emptyAnswers
  tenants : next.tenants = r.tenants
  parked : next.parked = r.parked
  jobs : ∃ dir, next.jobs = r.jobs.insert key ⟨kind, dir, none⟩

section Starts

variable {r next : Reconciler} {key dir : String} {kind : TenantJobKind}

theorem started_startJob (h : r.startJob key kind dir = .ok next) : r.Started next key kind := by
  unfold startJob at h
  split at h
  · cases h
  · cases h
    exact ⟨rfl, rfl, rfl, rfl, dir, rfl⟩

theorem started_startForget (h : r.startForget key dir = .ok next) :
    r.Started next key .forgetting := by
  obtain ⟨hwanted, hanswers, htenants, hparked, hjobs⟩ := started_startJob h
  exact ⟨hwanted, hanswers, htenants, hparked, hjobs⟩

theorem started_startProvision {hosted : HostedNetwork}
    (h : r.startProvision key hosted = .ok next) :
    r.Started next key .provisioning := by
  obtain ⟨hwanted, hanswers, htenants, hparked, hjobs⟩ := started_startJob h
  exact ⟨hwanted, hanswers, htenants, hparked, hjobs⟩

theorem Started.job_cases (h : r.Started next key kind) {other : String} {job : TenantJob}
    (hjob : next.jobs[other]? = some job) :
    (other = key ∧ job.kind = kind ∧ job.done = none) ∨ r.jobs[other]? = some job := by
  obtain ⟨dir, hjobs⟩ := h.jobs
  rw [hjobs, TreeMap.getElem?_insert] at hjob
  split at hjob
  · rename_i hsame
    cases hjob
    have hkey : key = other := by simpa using hsame
    exact .inl ⟨hkey.symm, rfl, rfl⟩
  · exact .inr hjob

theorem Started.mem_jobs (h : r.Started next key kind) : key ∈ next.jobs := by
  obtain ⟨dir, hjobs⟩ := h.jobs
  rw [hjobs]
  exact TreeMap.mem_insert_self

theorem Started.mem_jobs_of_mem (h : r.Started next key kind) {other : String}
    (hother : other ∈ r.jobs) : other ∈ next.jobs := by
  obtain ⟨dir, hjobs⟩ := h.jobs
  rw [hjobs]
  exact TreeMap.mem_insert.mpr (.inr hother)

end Starts

/-- What becomes of a slot whose job has been taken out, by what the job handed back. -/
inductive Settled (r : Reconciler) (key : String) (job : TenantJob) (done : JobEnd) :
    Reconciler → Prop
  | back (tenant : Tenant) : done.handsBack = true →
      Settled r key job done
        { r with jobs := r.jobs.erase key, tenants := r.tenants.insert key tenant }
  | parks (parked : Parked) : done.mayPark = true →
      Settled r key job done
        { r with jobs := r.jobs.erase key, parked := r.parked.insert key parked }
  | leaves (parked : TreeMap String Parked) : done.stays = false →
      parked = r.parked ∨ parked = r.parked.erase key →
      Settled r key job done { r with jobs := r.jobs.erase key, parked := parked }
  | starts {next : Reconciler} (kind : TenantJobKind) :
      ({ r with jobs := r.jobs.erase key } : Reconciler).Started next key kind →
      kind = .forgetting ∨ kind = .cleaningAfterPanic ∧ job.kind ≠ .forgetting →
      Settled r key job done next

variable {r next : Reconciler} {key : String} {now : Nat}

theorem settled {job : TenantJob} {done : JobEnd}
    (h : ({ r with jobs := r.jobs.erase key } : Reconciler).settle key job now done = .ok next) :
    r.Settled key job done next := by
  have hforget (hstart : ({ r with jobs := r.jobs.erase key } : Reconciler).startForget key
      job.dir = .ok next) : r.Settled key job done next :=
    .starts _ (started_startForget hstart) (.inl rfl)
  have hpark (hmay : done.mayPark = true)
      (hok : ({ r with jobs := r.jobs.erase key } : Reconciler).parkOrForget key job.dir now =
        .ok next) : r.Settled key job done next := by
    unfold parkOrForget at hok
    split at hok
    · cases hok
      exact .parks _ hmay
    · exact hforget hok
  cases done with
  | panicked =>
    simp only [settle] at h
    split at h
    · exact hforget h
    · rename_i hkind
      exact .starts _ (started_startJob h) (.inr ⟨rfl, hkind⟩)
  | returned output =>
    cases output with
    | provisioned result =>
      cases result with
      | some tenant =>
        cases h
        exact .back tenant rfl
      | none => exact hpark rfl h
    | reconciled tenant =>
      cases h
      exact .back tenant rfl
    | drained =>
      simp only [settle] at h
      split at h
      · exact hforget h
      · cases h
        exact .leaves _ rfl (.inl rfl)
    | cancelled =>
      cases h
      exact .leaves _ rfl (.inl rfl)
    | cleanedAfterPanic => exact hpark rfl h
    | forgotten =>
      cases h
      exact .leaves _ rfl (.inr rfl)

/-! ## What is kept -/

/-- Every finished job has an end of its kind. -/
def EndsMatch (r : Reconciler) : Prop :=
  ∀ (key : String) (job : TenantJob) (done : JobEnd), r.jobs[key]? = some job →
    job.done = some done → job.kind.endsWith done = true

/-- No network runs or is parked, and all that is left to do is to remove directories. -/
structure Quiet (r : Reconciler) : Prop where
  tenants : ∀ key, key ∉ r.tenants
  parked : ∀ key, key ∉ r.parked
  jobs : ∀ (key : String) (job : TenantJob), r.jobs[key]? = some job → job.kind = .forgetting

theorem Started.endsMatch {kind : TenantJobKind} (h : r.Started next key kind)
    (hends : r.EndsMatch) : next.EndsMatch := by
  intro other job done hjob hdone
  obtain ⟨-, -, hnew⟩ | hold := h.job_cases hjob
  · rw [hnew] at hdone
    cases hdone
  · exact hends other job done hold hdone

theorem Quiet.started {kind : TenantJobKind} (h : r.Quiet) (hstarted : r.Started next key kind)
    (hkind : kind = .forgetting) : next.Quiet where
  tenants := hstarted.tenants ▸ h.tenants
  parked := hstarted.parked ▸ h.parked
  jobs other job hjob := by
    obtain ⟨-, hnew, -⟩ | hold := hstarted.job_cases hjob
    · exact hnew.trans hkind
    · exact h.jobs other job hold

theorem EndsMatch.erase (hends : r.EndsMatch) (key : String) :
    ({ r with jobs := r.jobs.erase key } : Reconciler).EndsMatch := by
  intro other job done hjob hdone
  rw [TreeMap.getElem?_erase] at hjob
  split at hjob
  · cases hjob
  · exact hends other job done hjob hdone

/-- The intent, the count and the jobs' ends, along the loops of a pass. -/
structure Kept (wanted : List String) (answers : Nat) (r : Reconciler) : Prop where
  wanted : r.wanted = wanted
  emptyAnswers : r.emptyAnswers = answers
  ends : r.EndsMatch

section Loops

variable {wanted : List String} {answers : Nat} {r next : Reconciler}

theorem Started.kept {kind : TenantJobKind} (h : r.Started next key kind)
    (hkept : r.Kept wanted answers) : next.Kept wanted answers :=
  ⟨h.wanted.trans hkept.wanted, h.emptyAnswers.trans hkept.emptyAnswers, h.endsMatch hkept.ends⟩

section

variable (hkept : r.Kept wanted answers)
include hkept

theorem Kept.drainGone (h : r.drainGone key = .ok next) : next.Kept wanted answers := by
  unfold Reconciler.drainGone at h
  split at h
  · obtain ⟨drained, hdrained, rfl⟩ := map_eq_ok h
    exact { (started_startJob hdrained).kept { hkept with } with }
  · cases h
    exact { hkept with }

theorem Kept.forgetAbandoned (h : r.forgetAbandoned key = .ok next) : next.Kept wanted answers := by
  have herased : ({ r with parked := r.parked.erase key } : Reconciler).Kept wanted answers :=
    { hkept with }
  unfold Reconciler.forgetAbandoned at h
  simp only at h
  split at h
  · cases h
    exact herased
  · split at h
    · exact (started_startForget h).kept herased
    · cases h

theorem Kept.restartFailing (h : restartFailing now r key = .ok next) :
    next.Kept wanted answers := by
  unfold Reconciler.restartFailing at h
  simp only at h
  split at h
  · exact (started_startJob h).kept { hkept with }
  · cases h
    exact { hkept with }

theorem Kept.reconcileStanding (h : r.reconcileStanding key = .ok next) :
    next.Kept wanted answers := by
  unfold Reconciler.reconcileStanding at h
  split at h
  · exact (started_startJob h).kept { hkept with }
  · cases h
    exact hkept

theorem Kept.provisionWanted {entry : String × HostedNetwork}
    (h : provisionWanted now r entry = .ok next) : next.Kept wanted answers := by
  unfold Reconciler.provisionWanted at h
  split at h
  · cases h
    exact hkept
  · split at h
    · cases h
      exact hkept
    · exact (started_startProvision h).kept hkept

theorem Kept.collect {poll : Poll} {desired : Desired} {due : Collectable}
    (h : collect poll desired r due = .ok next) : next.Kept wanted answers := by
  unfold Reconciler.collect at h
  split at h
  · cases h
    exact hkept
  · split at h
    · cases h
      exact hkept
    · simp only at h
      split at h
      · exact (started_startForget h).kept hkept
      · cases h
        exact hkept
      · cases h
        exact { hkept with }

theorem Kept.startCollections {poll : Poll} {desired : Desired}
    (h : r.startCollections poll desired = .ok next) : next.Kept wanted answers :=
  foldlM_invariant (Kept wanted answers) (fun _ _ _ _ hkept h => hkept.collect h) hkept h

end

end Loops

variable {poll : Poll} {desired : Desired} {fresh : Bool} {cached : Option (Option Desired)}
    {event : Event} {confirmations : Nat}

/-- A pass that acts takes over the intent of its document. -/
theorem kept_act (hends : r.EndsMatch) (h : r.act poll desired fresh now = .ok next) :
    next.Kept (wantedOf desired).keys r.emptyAnswers := by
  have hstart : ({ r with wanted := (wantedOf desired).keys } : Reconciler).Kept
      (wantedOf desired).keys r.emptyAnswers := ⟨rfl, rfl, hends⟩
  obtain ⟨drained, hdrained, h⟩ := bind_eq_ok_iff.mp h
  obtain ⟨forgotten, hforgotten, h⟩ := bind_eq_ok_iff.mp h
  obtain ⟨restarted, hrestarted, h⟩ := bind_eq_ok_iff.mp h
  obtain ⟨standing, hstanding, h⟩ := bind_eq_ok_iff.mp h
  obtain ⟨scheduled, hscheduled, h⟩ := bind_eq_ok_iff.mp h
  have hkept := foldlM_invariant (Kept _ _) (fun _ _ _ _ hkept h => hkept.drainGone h) hstart hdrained
  have hkept := foldlM_invariant (Kept _ _) (fun _ _ _ _ hkept h => hkept.forgetAbandoned h)
    hkept hforgotten
  have hkept := foldlM_invariant (Kept _ _) (fun _ _ _ _ hkept h => hkept.restartFailing h)
    hkept hrestarted
  have hkept := foldlM_invariant (Kept _ _) (fun _ _ _ _ hkept h => hkept.reconcileStanding h)
    hkept hstanding
  have hkept := foldlM_invariant (Kept _ _) (fun _ _ _ _ hkept h => hkept.provisionWanted h)
    hkept hscheduled
  split at h
  · exact hkept.startCollections h
  · cases h
    exact hkept

/-! ## Reaping -/

section Reaping

variable {r next : Reconciler} {now : Nat}

theorem job_of_mem_finished {finished : String × JobEnd} (h : finished ∈ r.jobs.toList.filterMap
      fun entry => entry.2.done.map fun done => (entry.1, done)) :
    ∃ job, r.jobs[finished.1]? = some job ∧ job.done = some finished.2 := by
  obtain ⟨⟨key, job⟩, hentry, hdone⟩ := mem_filterMap.mp h
  obtain ⟨done, hfound, rfl⟩ := Option.map_eq_some_iff.mp hdone
  exact ⟨job, TreeMap.mem_toList_iff_getElem?_eq_some.mp hentry, hfound⟩

/-- An invariant kept where the slot of a finished job is settled is one of reaping, unless it is
about collections. -/
theorem reapKnownJobs_invariant (Inv : Reconciler → Prop)
    (hcollections : ∀ r collections, Inv r → Inv { r with collections := collections })
    (hstep : ∀ s s' key job done, (∃ held, r.jobs[key]? = some held ∧ held.done = some done) →
      Inv s → s.jobs[key]? = some job → s.Settled key job done s' → Inv s')
    (hr : Inv r) (h : r.reapKnownJobs now = .ok next) : Inv next := by
  obtain ⟨reaped, hreaped, rfl⟩ := map_eq_ok h
  apply hcollections
  refine foldlM_invariant Inv (fun s finished s' hmem hinv hs => ?_) hr hreaped
  unfold reapJob at hs
  split at hs
  · cases hs
    exact hinv
  · rename_i job hjob
    exact hstep s s' finished.1 job finished.2 (job_of_mem_finished hmem) hinv hjob (settled hs)

theorem kept_reapKnownJobs (hends : r.EndsMatch) (h : r.reapKnownJobs now = .ok next) :
    next.Kept r.wanted r.emptyAnswers := by
  apply reapKnownJobs_invariant (Kept r.wanted r.emptyAnswers)
    (fun _ _ hkept => { hkept with }) _ ⟨rfl, rfl, hends⟩ h
  intro s s' key job done _ hkept _ hsettled
  cases hsettled with
  | back | parks | leaves => exact { hkept with ends := hkept.ends.erase key }
  | starts kind hstarted => exact hstarted.kept { hkept with ends := hkept.ends.erase key }

theorem mem_tenants_reapKnownJobs {key : String} (hkey : key ∈ r.tenants)
    (h : r.reapKnownJobs now = .ok next) : key ∈ next.tenants := by
  apply reapKnownJobs_invariant (fun r => key ∈ r.tenants) (fun _ _ hinv => hinv) _ hkey h
  intro s s' other job done _ hinv _ hsettled
  cases hsettled with
  | back tenant => exact TreeMap.mem_insert.mpr (.inr hinv)
  | parks | leaves => exact hinv
  | starts kind hstarted =>
    rw [hstarted.tenants]
    exact hinv

/-- A network in a job, whose end if any keeps it here. -/
theorem occupied_reapKnownJobs {key : String} {held : TenantJob} (hkey : r.jobs[key]? = some held)
    (hstays : held.done.all JobEnd.stays = true) (h : r.reapKnownJobs now = .ok next) :
    key ∈ next.tenants ∨ key ∈ next.jobs := by
  apply reapKnownJobs_invariant (fun r => key ∈ r.tenants ∨ key ∈ r.jobs)
    (fun _ _ hinv => hinv) _ (.inr (mem_of_getElem? hkey)) h
  rintro s s' other job done ⟨finished, hfinished, hdone⟩ hinv _ hsettled
  -- the other networks keep their slots, and so does a job that ends with this network here
  have herased (hne : key ≠ other) : key ∈ s.tenants ∨ key ∈ s.jobs.erase other := by
    refine hinv.imp id fun hmem => TreeMap.mem_erase.mpr ⟨?_, hmem⟩
    simpa using hne.symm
  have hother (hleaves : done.stays = false) : key ≠ other := by
    rintro rfl
    obtain rfl : held = finished := Option.some.inj (hkey.symm.trans hfinished)
    rw [hdone, Option.all_some, hleaves] at hstays
    cases hstays
  cases hsettled with
  | back tenant =>
    by_cases hsame : key = other
    · exact .inl (by simp [hsame])
    · exact (herased hsame).imp (fun hmem => TreeMap.mem_insert.mpr (.inr hmem)) id
  | parks parked hparks => exact herased (hother (JobEnd.stays_of_mayPark hparks))
  | leaves parked hleaves => exact herased (hother hleaves)
  | starts kind hstarted =>
    by_cases hsame : key = other
    · subst hsame
      exact .inr hstarted.mem_jobs
    · rw [hstarted.tenants]
      exact (herased hsame).imp id hstarted.mem_jobs_of_mem

/-- Nothing is parked if nothing was and no finished job parks its network. -/
theorem unparked_reapKnownJobs (hparked : ∀ key, key ∉ r.parked)
    (hends : ∀ (key : String) (job : TenantJob), r.jobs[key]? = some job →
      job.done.any JobEnd.mayPark = false) (h : r.reapKnownJobs now = .ok next) :
    ∀ key, key ∉ next.parked := by
  apply reapKnownJobs_invariant (fun r => ∀ key, key ∉ r.parked) (fun _ _ hinv => hinv) _ hparked h
  rintro s s' other job done ⟨finished, hfinished, hdone⟩ hinv _ hsettled
  cases hsettled with
  | back tenant => exact hinv
  | parks parked hparks =>
    have hnot := hends other finished hfinished
    rw [hdone, Option.any_some, hparks] at hnot
    cases hnot
  | leaves parked hleaves hless =>
    obtain rfl | rfl := hless
    · exact hinv
    · exact fun key hmem => hinv key (TreeMap.mem_of_mem_erase hmem)
  | starts kind hstarted =>
    rw [hstarted.parked]
    exact hinv

/-- Reaping removals leaves removals only. -/
theorem Quiet.reapKnownJobs (hquiet : r.Quiet) (hends : r.EndsMatch)
    (h : r.reapKnownJobs now = .ok next) : next.Quiet := by
  apply reapKnownJobs_invariant Quiet (fun _ _ hinv => { hinv with }) _ hquiet h
  rintro s s' key job done ⟨finished, hfinished, hdone⟩ hinv hjob hsettled
  have hend := hends key finished done hfinished hdone
  rw [hquiet.jobs key finished hfinished] at hend
  have herased : ({ s with jobs := s.jobs.erase key } : Reconciler).Quiet := by
    refine ⟨hinv.tenants, hinv.parked, fun other job' hjob' => ?_⟩
    rw [TreeMap.getElem?_erase] at hjob'
    split at hjob'
    · cases hjob'
    · exact hinv.jobs other job' hjob'
  cases hsettled with
  | back tenant hback =>
    rw [(JobEnd.of_forgetting hend).1] at hback
    cases hback
  | parks parked hparks =>
    rw [(JobEnd.of_forgetting hend).2] at hparks
    cases hparks
  | leaves parked hleaves hless =>
    refine ⟨herased.tenants, ?_, herased.jobs⟩
    obtain rfl | rfl := hless
    · exact herased.parked
    · exact fun other hmem => herased.parked other (TreeMap.mem_of_mem_erase hmem)
  | starts kind hstarted hkind =>
    exact herased.started hstarted
      (hkind.resolve_right fun hclean => hclean.2 (hinv.jobs key job hjob))

end Reaping

theorem keys_eq_nil_iff {β : Type*} {table : TreeMap String β} :
    table.keys = [] ↔ table.isEmpty = true := by
  rw [← TreeMap.isEmpty_keys, List.isEmpty_iff]

theorem toList_eq_nil {β : Type*} {table : TreeMap String β} (h : table.isEmpty = true) :
    table.toList = [] := by
  rw [← List.isEmpty_iff, TreeMap.isEmpty_toList, h]

theorem quiet_collect {due : Collectable} {keys : List String} (hquiet : r.Quiet)
    (hkeys : ∀ key ∈ r.jobs, key ∈ keys) (hdue : due.key ∈ keys)
    (h : collect poll desired r due = .ok next) : next.Quiet ∧ ∀ key ∈ next.jobs, key ∈ keys := by
  unfold collect at h
  split at h
  · cases h
    exact ⟨hquiet, hkeys⟩
  split at h
  · cases h
    exact ⟨hquiet, hkeys⟩
  simp only at h
  split at h
  · have hstarted := started_startForget h
    refine ⟨hquiet.started hstarted rfl, fun key hkey => ?_⟩
    obtain ⟨job, hjob⟩ := Option.isSome_iff_exists.mp (TreeMap.mem_iff_isSome_getElem?.mp hkey)
    obtain ⟨rfl, -, -⟩ | hold := hstarted.job_cases hjob
    · exact hdue
    · exact hkeys key (mem_of_getElem? hold)
  · cases h
    exact ⟨hquiet, hkeys⟩
  · cases h
    exact ⟨{ hquiet with }, hkeys⟩

/-- Where nothing runs, has a job or is parked, acting on an empty set starts nothing but the
removals that the document lists for collection. -/
theorem quiet_act (htenants : r.tenants.isEmpty = true) (hjobs : r.jobs.isEmpty = true)
    (hparked : r.parked.isEmpty = true) (hempty : (wantedOf desired).isEmpty = true)
    (h : r.act poll desired fresh now = .ok next) :
    next.Quiet ∧ ∀ key ∈ next.jobs, key ∈ (collectableOf desired).map Collectable.key := by
  have hquiet : ({ r with wanted := (wantedOf desired).keys } : Reconciler).Quiet ∧
      ∀ key ∈ r.jobs, key ∈ (collectableOf desired).map Collectable.key := by
    rw [TreeMap.isEmpty_iff_forall_not_mem] at htenants hjobs hparked
    refine ⟨⟨htenants, hparked, fun key job hjob => ?_⟩, fun key hkey => absurd hkey (hjobs key)⟩
    exact absurd (mem_of_getElem? hjob) (hjobs key)
  -- every loop before the collections has nothing to visit
  unfold act at h
  simp only [keys_eq_nil_iff.mpr htenants, keys_eq_nil_iff.mpr hparked, toList_eq_nil htenants,
    toList_eq_nil hempty, filter_nil, map_nil, foldlM_nil, pure_bind] at h
  split at h
  · refine foldlM_invariant (fun r : Reconciler =>
      r.Quiet ∧ ∀ key ∈ r.jobs, key ∈ (collectableOf desired).map Collectable.key) ?_ hquiet h
    intro s due s' hdue hs hcollect
    exact quiet_collect hs.1 hs.2 (mem_map.mpr ⟨due, hdue, rfl⟩) hcollect
  · cases h
    exact hquiet

/-! ## One tick -/

theorem desired_held (r : Reconciler) (poll : Poll) (cached : Option (Option Desired)) :
    ∃ last, (r.desired poll cached).2 = { r with last := last } := by
  unfold desired
  cases poll with
  | changed answer => exact ⟨_, rfl⟩
  | unchanged | unreachable =>
    cases hlast : r.last with
    | some answer => exact ⟨r.last, rfl⟩
    | none => exact ⟨r.last, rfl⟩

theorem saysEmpty_of_fresh {document : Desired}
    (h : (r.desired poll cached).1 = some (some (document, true))) :
    r.saysEmpty poll = (wantedOf document).isEmpty := by
  unfold desired at h
  cases poll with
  | changed answer =>
    obtain rfl : answer = document := by simpa using h
    rfl
  | unchanged =>
    cases hlast : r.last with
    | some answer =>
      obtain rfl : answer = document := by simpa [hlast] using h
      simp [saysEmpty, hlast]
    | none => simp [hlast] at h
  | unreachable => cases hlast : r.last <;> simp [hlast] at h

/-- What a tick comes to: there is no document, or the pass reaps and then waits for an empty set
to be confirmed, or acts on one that is, or acts on something else. -/
theorem tick_cases (h : r.tick poll cached now = .ok next) :
    (r.documentOf (.tick poll cached now) = none ∧ next = (r.desired poll cached).2) ∨
      ∃ document fresh reaped, (r.desired poll cached).1 = some (some (document, fresh)) ∧
        (r.desired poll cached).2.reapKnownJobs now = .ok reaped ∧
        (((wantedOf document).isEmpty = true ∧ next = reaped.countEmpty fresh) ∨
          ((wantedOf document).isEmpty = true ∧
            emptySetConfirmations ≤ (reaped.countEmpty fresh).emptyAnswers ∧
            (reaped.countEmpty fresh).act poll document fresh now = .ok next) ∨
          (¬((wantedOf document).isEmpty = true ∧ 0 < reaped.tenants.size + reaped.jobs.size) ∧
            ({ reaped with emptyAnswers := 0 } : Reconciler).act poll document fresh now =
              .ok next)) := by
  unfold tick at h
  simp only [documentOf]
  generalize r.desired poll cached = answer at h ⊢
  rcases answer with ⟨_ | _ | ⟨document, fresh⟩, held⟩
  · cases h
    exact .inl ⟨rfl, rfl⟩
  · cases h
    exact .inl ⟨rfl, rfl⟩
  · obtain ⟨reaped, hreaped, h⟩ := bind_eq_ok_iff.mp h
    refine .inr ⟨document, fresh, reaped, rfl, hreaped, ?_⟩
    split at h
    · rename_i hempty
      simp only at h
      split at h
      · cases h
        exact .inl ⟨hempty.1, rfl⟩
      · rename_i hconfirmed
        exact .inr (.inl ⟨hempty.1, Nat.not_lt.mp hconfirmed, h⟩)
    · rename_i hother
      exact .inr (.inr ⟨hother, h⟩)

/-- What holds of a reconciler while empty sets are counted: an empty intent is confirmed, or was
taken over when there was nothing it could destroy. -/
structure Guarded (r : Reconciler) (confirmations : Nat) : Prop where
  ends : r.EndsMatch
  counted : r.emptyAnswers ≤ confirmations
  empty : r.wanted = [] → emptySetConfirmations ≤ confirmations ∨ r.Quiet

/-- The keys a document lists for collection. -/
def dueOf (r : Reconciler) (event : Event) : List String :=
  ((r.documentOf event).map collectableOf).getD [] |>.map Collectable.key

/-- What one event leaves: an empty intent is confirmed, or there was nothing here before, or
nothing is left but removals for collection. -/
structure Passed (r next : Reconciler) (event : Event) (confirmations : Nat) : Prop where
  ends : next.EndsMatch
  counted : next.emptyAnswers ≤ confirmations
  empty : next.wanted = [] → emptySetConfirmations ≤ confirmations ∨
    next.Quiet ∧ (r.Quiet ∨ ∀ key ∈ next.jobs, key ∈ r.dueOf event)

theorem Passed.guarded (h : Passed r next event confirmations) : next.Guarded confirmations :=
  ⟨h.ends, h.counted, fun hempty => (h.empty hempty).imp id And.left⟩

/-- An event that leaves the intent alone. -/
theorem Guarded.passed_of_kept {confirmations' : Nat} (h : r.Guarded confirmations)
    (hends : next.EndsMatch) (hwanted : next.wanted = r.wanted)
    (hanswers : next.emptyAnswers ≤ confirmations') (hle : confirmations ≤ confirmations')
    (hquiet : r.Quiet → next.Quiet) : Passed r next event confirmations' := by
  refine ⟨hends, hanswers, fun hempty => ?_⟩
  obtain hconfirmed | hstill := h.empty (hwanted ▸ hempty)
  · exact .inl (Nat.le_trans hconfirmed hle)
  · exact .inr ⟨hquiet hstill, .inl hstill⟩

/-- Something that stays is found by the guard of the pass. -/
theorem Occupied.active {reaped : Reconciler} (h : r.Occupied)
    (hreaped : r.reapKnownJobs now = .ok reaped) : 0 < reaped.tenants.size + reaped.jobs.size := by
  have hsize : ∀ {β : Type} {table : TreeMap String β} {key : String}, key ∈ table →
      0 < table.size := by
    intro β table key hkey
    rw [← TreeMap.length_keys]
    exact length_pos_of_mem (TreeMap.mem_keys.mpr hkey)
  obtain htenants | hjobs := h
  · obtain ⟨key, hkey⟩ := TreeMap.isEmpty_eq_false_iff_exists_mem.mp htenants
    exact Nat.add_pos_left (hsize (mem_tenants_reapKnownJobs hkey hreaped)) _
  · obtain ⟨⟨key, job⟩, hentry, hstays⟩ := any_eq_true.mp hjobs
    have hjob := TreeMap.mem_toList_iff_getElem?_eq_some.mp hentry
    obtain htenant | hstill := occupied_reapKnownJobs hjob hstays hreaped
    · exact Nat.add_pos_left (hsize htenant) _
    · exact Nat.add_pos_right _ (hsize hstill)

theorem Unparked.parked {reaped : Reconciler} (h : r.Unparked)
    (hreaped : r.reapKnownJobs now = .ok reaped) : reaped.parked.isEmpty = true := by
  rw [TreeMap.isEmpty_iff_forall_not_mem]
  refine unparked_reapKnownJobs (TreeMap.isEmpty_iff_forall_not_mem.mp h.1)
    (fun key job hjob => ?_) hreaped
  have hentry := all_eq_true.mp h.2 _ (TreeMap.mem_toList_iff_getElem?_eq_some.mpr hjob)
  simpa using hentry

theorem countEmpty_eq (r : Reconciler) (fresh : Bool) :
    ∃ answers, r.countEmpty fresh = { r with emptyAnswers := answers } := by
  cases fresh with
  | false => exact ⟨_, rfl⟩
  | true => exact ⟨_, rfl⟩

theorem Guarded.tick {watched : Watched} (hworld : watched.world = .running r)
    (hguarded : r.Guarded watched.confirmations)
    (hsheltered : Sheltered watched (.tick poll cached now))
    (h : r.tick poll cached now = .ok next) :
    Passed r next (.tick poll cached now) (watched.tally (.tick poll cached now)) := by
  obtain ⟨last, hheld⟩ := desired_held r poll cached
  obtain ⟨hnone, rfl⟩ | ⟨document, fresh, reaped, hdesired, hreaped, hcases⟩ := tick_cases h
  · rw [hheld]
    have htally : watched.tally (.tick poll cached now) = watched.confirmations := by
      simp only [Watched.tally, hworld, hnone]
    rw [htally]
    exact hguarded.passed_of_kept hguarded.ends rfl hguarded.counted (Nat.le_refl _)
      fun hquiet => { hquiet with }
  have hdocument : r.documentOf (.tick poll cached now) = some document := by
    simp [documentOf, hdesired]
  rw [hheld] at hreaped
  have hends : ({ r with last := last } : Reconciler).EndsMatch := hguarded.ends
  have hkept : reaped.Kept r.wanted r.emptyAnswers :=
    kept_reapKnownJobs (r := { r with last := last }) hends hreaped
  have hquiet : r.Quiet → reaped.Quiet := fun hquiet =>
    Quiet.reapKnownJobs (r := { r with last := last }) { hquiet with } hends hreaped
  by_cases hempty : (wantedOf document).isEmpty = true
  · -- the count goes up with every fresh answer that says so
    have hcounts : (reaped.countEmpty fresh).emptyAnswers ≤
        watched.tally (.tick poll cached now) ∧
        watched.confirmations ≤ watched.tally (.tick poll cached now) := by
      have hcounted := hguarded.counted
      have htally : watched.tally (.tick poll cached now) =
          if r.saysEmpty poll then watched.confirmations + 1 else watched.confirmations := by
        simp only [Watched.tally, hworld, hdocument, hempty, Bool.true_eq_false, if_false]
      cases fresh with
      | false =>
        have hsame : (reaped.countEmpty false).emptyAnswers = r.emptyAnswers :=
          hkept.emptyAnswers
        rw [htally, hsame]
        split <;> omega
      | true =>
        have hsays := saysEmpty_of_fresh hdesired
        have hmore : (reaped.countEmpty true).emptyAnswers =
            min (r.emptyAnswers + 1) (2 ^ 32 - 1) := by
          rw [← hkept.emptyAnswers]
          rfl
        rw [htally, hmore, hsays, hempty, if_pos rfl]
        omega
    obtain ⟨answers, hcounted⟩ := countEmpty_eq reaped fresh
    rw [hcounted] at hcounts hcases
    obtain ⟨-, rfl⟩ | ⟨-, hconfirmed, hact⟩ | ⟨hnot, hact⟩ := hcases
    · exact hguarded.passed_of_kept hkept.ends hkept.wanted hcounts.1 hcounts.2
        fun hstill => { hquiet hstill with }
    · have hacted := kept_act (r := { reaped with emptyAnswers := answers }) hkept.ends hact
      exact ⟨hacted.ends, hacted.emptyAnswers ▸ hcounts.1,
        fun _ => .inl (Nat.le_trans hconfirmed hcounts.1)⟩
    · have hacted := kept_act (r := { reaped with emptyAnswers := 0 }) hkept.ends hact
      refine ⟨hacted.ends, hacted.emptyAnswers ▸ Nat.zero_le _, fun _ => ?_⟩
      have hidle : ¬0 < reaped.tenants.size + reaped.jobs.size := fun hactive =>
        hnot ⟨hempty, hactive⟩
      have hshelter : emptySetConfirmations ≤ watched.tally (.tick poll cached now) ∨
          r.Occupied ∨ r.Unparked := by
        have hsheltered := hsheltered
        simp only [Sheltered, hworld, hdocument] at hsheltered
        exact hsheltered hempty
      obtain hconfirmed | hoccupied | hunparked := hshelter
      · exact .inl hconfirmed
      · exact absurd (Occupied.active (r := { r with last := last }) hoccupied hreaped) hidle
      · have hparked := Unparked.parked (r := { r with last := last }) hunparked hreaped
        have htenants : reaped.tenants.isEmpty = true := by
          simpa [TreeMap.isEmpty_eq_size_eq_zero] using (by omega : reaped.tenants.size = 0)
        have hjobs : reaped.jobs.isEmpty = true := by
          simpa [TreeMap.isEmpty_eq_size_eq_zero] using (by omega : reaped.jobs.size = 0)
        obtain ⟨hdone, hdue⟩ := quiet_act (r := { reaped with emptyAnswers := 0 }) htenants hjobs
          hparked hempty hact
        refine .inr ⟨hdone, .inr fun key hkey => ?_⟩
        simpa [dueOf, hdocument] using hdue key hkey
  · -- a document that hosts something is acted on as it is
    obtain ⟨hnot, -⟩ | ⟨hnot, -, -⟩ | ⟨-, hact⟩ := hcases
    · exact absurd hnot hempty
    · exact absurd hnot hempty
    · have hacted := kept_act (r := { reaped with emptyAnswers := 0 }) hkept.ends hact
      refine ⟨hacted.ends, hacted.emptyAnswers ▸ Nat.zero_le _, fun hnil => ?_⟩
      rw [hacted.wanted] at hnil
      exact absurd (keys_eq_nil_iff.mp hnil) hempty

theorem Quiet.not_held (hquiet : r.Quiet) (hstays : ¬r.Retiring key) : ¬r.Held key := by
  rintro (htenant | hjob | hparked)
  · exact hquiet.tenants key htenant
  · obtain ⟨job, hjob⟩ := Option.isSome_iff_exists.mp (TreeMap.mem_iff_isSome_getElem?.mp hjob)
    exact hstays ⟨job, hjob, .inr (hquiet.jobs key job hjob)⟩
  · exact hquiet.parked key hparked

theorem guarded_new (baseDir : String) (directories : String → Metadata) :
    (new baseDir directories).Guarded 0 where
  ends := by simp [EndsMatch, new]
  counted := Nat.le_refl _
  empty _ := .inr ⟨by simp [new], by simp [new], by simp [new]⟩

theorem Guarded.jobEnds {job : TenantJob} {done : JobEnd} (h : r.Guarded confirmations)
    (hjob : r.jobs[key]? = some job) (hkind : job.kind.endsWith done = true) :
    Passed r { r with jobs := r.jobs.insert key { job with done := some done } }
      (.jobEnds key done) confirmations := by
  have hcases : ∀ (other : String) (job' : TenantJob),
      (r.jobs.insert key { job with done := some done })[other]? = some job' →
        job' = { job with done := some done } ∨ r.jobs[other]? = some job' := by
    intro other job' hjob'
    rw [TreeMap.getElem?_insert] at hjob'
    split at hjob'
    · exact .inl (Option.some.inj hjob').symm
    · exact .inr hjob'
  refine h.passed_of_kept ?_ rfl h.counted (Nat.le_refl _) fun hquiet => ?_
  · intro other job' done' hjob' hdone'
    obtain rfl | hold := hcases other job' hjob'
    · obtain rfl : done = done' := Option.some.inj hdone'
      exact hkind
    · exact h.ends other job' done' hold hdone'
  · refine ⟨hquiet.tenants, hquiet.parked, fun other job' hjob' => ?_⟩
    obtain rfl | hold := hcases other job' hjob'
    · exact hquiet.jobs key job hjob
    · exact hquiet.jobs other job' hold

/-- Whoever is put on the way out by an event was there before it, and a set that is empty before
or after the event has been confirmed. -/
theorem Passed.confirmed (h : Passed r next event confirmations) (hheld : r.Held key)
    (hstays : ¬r.Retiring key) (hretires : next.Retiring key) (hdue : key ∉ r.dueOf event)
    (hempty : next.wanted = []) : emptySetConfirmations ≤ confirmations := by
  obtain hconfirmed | ⟨-, hquiet | hjobs⟩ := h.empty hempty
  · exact hconfirmed
  · exact absurd hheld (hquiet.not_held hstays)
  · obtain ⟨job, hjob, -⟩ := hretires
    exact absurd (hjobs key (mem_of_getElem? hjob)) hdue

end Reconciler

/-! ## Whole runs -/

variable {r : Reconciler} {event : Event}

theorem World.of_eq_running {answer : Except String Reconciler} (h : World.of answer = .running r) :
    answer = .ok r := by
  cases answer with
  | ok r' => exact congrArg Except.ok (World.running.inj h)
  | error message => cases h

/-- What holds of the world while empty sets are counted. -/
def Watched.Guarded (watched : Watched) : Prop :=
  ∀ r, watched.world = .running r → r.Guarded watched.confirmations

theorem Watched.Guarded.passed {before after : Watched} {next : Reconciler} (h : before.Guarded)
    (hsheltered : Sheltered before event) (hstep : watch before event = some after)
    (hworld : before.world = .running r) (hnext : after.world = .running next) :
    Reconciler.Passed r next event after.confirmations := by
  obtain ⟨world, hworld', rfl⟩ := Option.map_eq_some_iff.mp hstep
  obtain rfl : world = .running next := hnext
  have hguarded := h r hworld
  rw [hworld] at hworld'
  cases event with
  | tick poll cached now =>
    have hok : r.tick poll cached now = .ok next := World.of_eq_running (Option.some.inj hworld')
    exact hguarded.tick hworld hsheltered hok
  | wake now =>
    have hok : r.reapKnownJobs now = .ok next := World.of_eq_running (Option.some.inj hworld')
    have hkept := Reconciler.kept_reapKnownJobs hguarded.ends hok
    simp only [Watched.tally, hworld]
    refine hguarded.passed_of_kept hkept.ends hkept.wanted ?_ (Nat.le_refl _)
      fun hquiet => hquiet.reapKnownJobs hguarded.ends hok
    rw [hkept.emptyAnswers]
    exact hguarded.counted
  | jobEnds key done =>
    obtain ⟨job, hjob, hends⟩ := Option.bind_eq_some_iff.mp hworld'
    obtain ⟨⟨-, hkind⟩, hnext⟩ := Option.ite_none_right_eq_some.mp hends
    cases Option.some.inj hnext
    simp only [Watched.tally, hworld]
    exact hguarded.jobEnds hjob hkind
  | collectionEnds key =>
    obtain ⟨-, hnext⟩ := Option.ite_none_right_eq_some.mp hworld'
    cases Option.some.inj hnext
    simp only [Watched.tally, hworld]
    exact hguarded.passed_of_kept hguarded.ends rfl hguarded.counted (Nat.le_refl _)
      fun hquiet => { hquiet with }
  | loopStops key =>
    obtain ⟨tenant, htenant, hnext⟩ := Option.map_eq_some_iff.mp hworld'
    cases hnext
    simp only [Watched.tally, hworld]
    refine hguarded.passed_of_kept hguarded.ends rfl hguarded.counted (Nat.le_refl _)
      fun hquiet => absurd ?_ (hquiet.tenants key)
    exact Reconciler.mem_of_getElem? htenant
  | directory path metadata =>
    cases Option.some.inj hworld'
    simp only [Watched.tally, hworld]
    exact hguarded.passed_of_kept hguarded.ends rfl hguarded.counted (Nat.le_refl _)
      fun hquiet => { hquiet with }

theorem Watched.Guarded.step {before after : Watched} (h : before.Guarded)
    (hsheltered : Sheltered before event) (hstep : watch before event = some after) :
    after.Guarded := by
  intro next hnext
  cases hworld : before.world with
  | running r => exact (h.passed hsheltered hstep hworld hnext).guarded
  | panicked message =>
    simp [watch, hworld, Hosting.step] at hstep

/-- However polls, documents and job ends follow one another, as long as an empty set is confirmed
or finds something running or nothing parked: a network that runs, is in a job or is parked is
drained for good or removed, under an empty intent, only once enough polls in a row have been
answered with an empty set.  Networks the control plane lists for collection are apart. -/
theorem empty_set_destroys_nothing
    {baseDir : String} {directories : String → Metadata} {events : List Event} {event : Event}
    {before after : Watched} {r next : Reconciler}
    (hsheltered : RunMeets watch Sheltered (.new baseDir directories) events)
    (hrun : run watch (.new baseDir directories) events = some before)
    (hguard : Sheltered before event) (hstep : watch before event = some after)
    (hworld : before.world = .running r) (hnext : after.world = .running next) :
    ∀ key, r.Held key → ¬r.Retiring key → next.Retiring key → key ∉ r.dueOf event →
      (r.wanted = [] → emptySetConfirmations ≤ before.confirmations) ∧
        (next.wanted = [] → emptySetConfirmations ≤ after.confirmations) := by
  have hguarded : before.Guarded := run_invariant_of_meets Watched.Guarded
    (fun _ _ _ h hsheltered hstep => h.step hsheltered hstep)
    (fun r hr => by cases hr; exact Reconciler.guarded_new baseDir directories) hsheltered hrun
  intro key hheld hstays hretires hdue
  constructor
  · intro hempty
    refine ((hguarded r hworld).empty hempty).resolve_right fun hquiet => ?_
    exact hquiet.not_held hstays hheld
  · exact (hguarded.passed hguard hstep hworld hnext).confirmed hheld hstays hretires hdue

/-- What is seen of a network around an event: whether it is there before and in which job, and
in which job it is after it; then the intent after it, and the count. -/
def lookAround (start : Watched) (events : List Event) (event : Event) (key : String) :
    Option (Bool × Option TenantJobKind × Option TenantJobKind × List String × Nat) :=
  (run watch start events).bind fun before =>
    (watch before event).bind fun after =>
      before.world.reconciler.bind fun r =>
        after.world.reconciler.map fun next =>
          (r.tenants.contains key || r.parked.contains key, r.jobs[key]?.map TenantJob.kind,
            next.jobs[key]?.map TenantJob.kind, next.wanted, after.confirmations)

theorem World.eq_running {world : World} (h : world.reconciler = some r) : world = .running r := by
  cases world with
  | running r' => exact congrArg World.running (Option.some.inj h)
  | panicked message => cases h

/-- A network that was there and in no job is put on its way out under an empty intent. -/
theorem exists_retired {start : Watched} {events : List Event} {key : String}
    {kind : TenantJobKind} {count : Nat}
    (h : lookAround start events event key = some (true, none, some kind, [], count))
    (hkind : kind = .draining true ∨ kind = .forgetting) :
    ∃ before after r next, run watch start events = some before ∧
      watch before event = some after ∧ before.world = .running r ∧ after.world = .running next ∧
      r.Held key ∧ ¬r.Retiring key ∧ next.Retiring key ∧ next.wanted = [] ∧
      after.confirmations = count := by
  obtain ⟨before, hrun, h⟩ := Option.bind_eq_some_iff.mp h
  obtain ⟨after, hstep, h⟩ := Option.bind_eq_some_iff.mp h
  obtain ⟨r, hworld, h⟩ := Option.bind_eq_some_iff.mp h
  obtain ⟨next, hnext, hseen⟩ := Option.map_eq_some_iff.mp h
  obtain ⟨hthere, hseen⟩ := Prod.mk.inj hseen
  obtain ⟨hidle, hseen⟩ := Prod.mk.inj hseen
  obtain ⟨hjob, hseen⟩ := Prod.mk.inj hseen
  obtain ⟨hempty, hcount⟩ := Prod.mk.inj hseen
  refine ⟨before, after, r, next, hrun, hstep, World.eq_running hworld, World.eq_running hnext,
    ?_, ?_, ?_, hempty, hcount⟩
  · obtain htenant | hparked := Bool.or_eq_true_iff.mp hthere
    · exact .inl (TreeMap.mem_iff_contains.mpr htenant)
    · exact .inr (.inr (TreeMap.mem_iff_contains.mpr hparked))
  · rintro ⟨job, hfound, -⟩
    rw [hfound] at hidle
    cases hidle
  · obtain ⟨job, hfound, rfl⟩ := Option.map_eq_some_iff.mp hjob
    exact ⟨job, hfound, hkind⟩

/-- The network runs, and two polls have said that nothing is hosted. -/
def emptiesProd : List Event :=
  [.tick (.changed hostingProd) (some none) 0,
    .jobEnds "acme/prod" (.returned (.provisioned (some ⟨"/var/acme/prod", false⟩))), .wake 1,
    .tick (.changed ⟨[], []⟩) (some none) 2, .tick .unreachable (some none) 3,
    .tick .unchanged (some none) 4]

/-- A running network is drained by the third poll that is answered so.  The one in between that
is not answered does not count. -/
theorem confirmed_empty_set_drains :
    ∃ before after r next,
      run watch (.new "/var" fun _ => .missing) emptiesProd = some before ∧
        watch before (.tick .unchanged (some none) 5) = some after ∧
        before.world = .running r ∧ after.world = .running next ∧
        r.Held "acme/prod" ∧ next.Retiring "acme/prod" ∧
        emptySetConfirmations ≤ after.confirmations := by
  have hsheltered : RunMeets watch Sheltered (.new "/var" fun _ => .missing)
      (emptiesProd ++ [.tick .unchanged (some none) 5]) := by
    decide +kernel
  have hlook : lookAround (.new "/var" fun _ => .missing) emptiesProd
      (.tick .unchanged (some none) 5) "acme/prod" =
        some (true, none, some (.draining true), [], 3) := by
    decide +kernel
  obtain ⟨before, after, r, next, hrun, hstep, hworld, hnext, hheld, hstays, hretires, hempty, -⟩ :=
    exists_retired hlook (.inl rfl)
  have hdue : "acme/prod" ∉ r.dueOf (.tick .unchanged (some none) 5) := by
    have hnone : ((run watch (.new "/var" fun _ => .missing) emptiesProd).bind
        fun watched => watched.world.reconciler).map
          (fun r => r.dueOf (.tick .unchanged (some none) 5)) = some [] := by
      decide +kernel
    rw [hrun, Option.bind_some, hworld] at hnone
    have hnil : r.dueOf (.tick .unchanged (some none) 5) = [] := Option.some.inj hnone
    rw [hnil]
    exact not_mem_nil
  refine ⟨before, after, r, next, hrun, hstep, hworld, hnext, hheld, hretires, ?_⟩
  obtain ⟨hmeets, hguard⟩ := (runMeets_append hrun).mp hsheltered
  exact (empty_set_destroys_nothing hmeets hrun hguard.1 hstep hworld hnext "acme/prod" hheld
    hstays hretires hdue).2 hempty

/-- A network that is parked after a failure: one document that hosts nothing removes its
directory. -/
theorem parked_network_removed_unconfirmed :
    ∃ before after r next,
      run watch (.new "/var" fun _ => .missing) parksProd = some before ∧
        watch before (.tick (.changed ⟨[], []⟩) (some none) 2) = some after ∧
        before.world = .running r ∧ after.world = .running next ∧
        r.Held "acme/prod" ∧ ¬r.Retiring "acme/prod" ∧ next.Retiring "acme/prod" ∧
        next.wanted = [] ∧ after.confirmations = 1 ∧ 1 < emptySetConfirmations := by
  have hlook : lookAround (.new "/var" fun _ => .missing) parksProd
      (.tick (.changed ⟨[], []⟩) (some none) 2) "acme/prod" =
        some (true, none, some .forgetting, [], 1) := by
    decide +kernel
  obtain ⟨before, after, r, next, hrun, hstep, hworld, hnext, hheld, hstays, hretires, hempty,
    hcount⟩ := exists_retired hlook (.inr rfl)
  exact ⟨before, after, r, next, hrun, hstep, hworld, hnext, hheld, hstays, hretires, hempty,
    hcount, by decide⟩

end Synch.Hosting
