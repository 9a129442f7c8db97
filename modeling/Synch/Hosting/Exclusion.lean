import Synch.Hosting.Reconciler
import Synch.Support.Run

/-!
# One piece of work for a network at a time

A network is at any time running, owned by one job, or having its storage collected, and never
two of these.  What could break this is a document that lists a network as hosted and as due
for collection: while the network waits out its backoff nothing of it is running, and its
storage is collected although it is hosted.
-/

namespace Synch.Hosting

open List Synch.Support
open Std (TreeMap)

/-- A document that lists no network both as hosted and as due for collection. -/
def Desired.Apart (desired : Desired) : Prop :=
  ∀ due ∈ desired.collect, ∀ hosted ∈ desired.networks, due.key ≠ hosted.key

instance (desired : Desired) : Decidable desired.Apart :=
  inferInstanceAs (Decidable (∀ due ∈ desired.collect, ∀ hosted ∈ desired.networks, _))

/-- A provision or a local removal starts while no collection of its key runs.  A collection
starts on a document answered in its pass that does not host the key, once its directory is
absent. -/
def Start.Sound : Start → Prop
  | .provision _ collecting => collecting = false
  | .removal _ collecting => collecting = false
  | .collection key poll desired directory =>
    poll.answered = true ∧ directory = .missing ∧ ∀ hosted ∈ desired.networks, hosted.key ≠ key

namespace Reconciler

/-- The key is in at most one of the three tables. -/
structure Exclusive (r : Reconciler) : Prop where
  tenants_jobs : ∀ key ∈ r.tenants, key ∉ r.jobs
  tenants_collections : ∀ key ∈ r.tenants, key ∉ r.collections
  jobs_collections : ∀ key ∈ r.jobs, key ∉ r.collections

/-- What every pass keeps.  A parked network has no collection running, every key that may
have to be taken apart has two names, and the document held was answered. -/
structure Orderly (r : Reconciler) : Prop extends Exclusive r where
  parked_collections : ∀ key ∈ r.parked, key ∉ r.collections
  split : ∀ key, key ∈ r.tenants ∨ key ∈ r.jobs ∨ key ∈ r.parked → (splitKey key).isSome
  last : ∀ desired ∈ r.last, desired.Apart
  started : ∀ start ∈ r.started, start.Sound

/-- No work of any kind on a key. -/
structure Idle (r : Reconciler) (key : String) : Prop where
  tenants : key ∉ r.tenants
  jobs : key ∉ r.jobs
  collections : key ∉ r.collections

theorem orderly_new (baseDir : String) (directories : String → Metadata) :
    (new baseDir directories).Orderly where
  tenants_jobs := by simp [new]
  tenants_collections := by simp [new]
  jobs_collections := by simp [new]
  parked_collections := by simp [new]
  split := by simp [new]
  last := by simp [new]
  started := by simp [new]

/-! ## Changes of one table -/

variable {key : String} {desired : Desired} {r : Reconciler} {poll : Poll}

theorem mem_or_eq_of_mem_insert {β : Type*} {table : TreeMap String β} {other : String}
    {value : β} (h : other ∈ table.insert key value) : other ∈ table ∨ other = key := by
  obtain rfl | h := by simpa [TreeMap.mem_insert] using h
  · exact .inr rfl
  · exact .inl h

theorem mem_of_mem_insert {β : Type*} {table : TreeMap String β} {value : β} (hkey : key ∈ table)
    (other : String) (h : other ∈ table.insert key value) : other ∈ table :=
  (mem_or_eq_of_mem_insert h).elim id (· ▸ hkey)

theorem mem_of_getElem? {β : Type*} {table : TreeMap String β} {value : β}
    (h : table[key]? = some value) : key ∈ table :=
  TreeMap.mem_iff_isSome_getElem?.mpr (Option.isSome_of_eq_some h)

namespace Orderly

variable {r : Reconciler} {key : String}

section

variable (h : r.Orderly)
include h

/-- Tables whose keys were there before, or have no other work. -/
theorem replace {tenants : TreeMap String Tenant} {jobs : TreeMap String TenantJob}
    {collections : TreeMap String CollectionJob} {parked : TreeMap String Parked}
    (htenants : ∀ key ∈ tenants, key ∈ r.tenants ∨ key ∉ jobs ∧ key ∉ collections ∧ (splitKey key).isSome)
    (hjobs : ∀ key ∈ jobs, key ∈ r.jobs ∨ key ∉ tenants ∧ key ∉ collections ∧ (splitKey key).isSome)
    (hcollections : ∀ key ∈ collections, key ∈ r.collections ∨ key ∉ tenants ∧ key ∉ jobs ∧ key ∉ parked)
    (hparked : ∀ key ∈ parked, key ∈ r.parked ∨ key ∉ collections ∧ (splitKey key).isSome) :
    ({ r with tenants := tenants, jobs := jobs, collections := collections, parked := parked } :
      Reconciler).Orderly where
  tenants_jobs key htenant hjob := by
    obtain hold | hnew := htenants key htenant
    · obtain hold' | hnew := hjobs key hjob
      · exact h.tenants_jobs key hold hold'
      · exact hnew.1 htenant
    · exact hnew.1 hjob
  tenants_collections key htenant hcollection := by
    obtain hold | hnew := htenants key htenant
    · obtain hold' | hnew := hcollections key hcollection
      · exact h.tenants_collections key hold hold'
      · exact hnew.1 htenant
    · exact hnew.2.1 hcollection
  jobs_collections key hjob hcollection := by
    obtain hold | hnew := hjobs key hjob
    · obtain hold' | hnew := hcollections key hcollection
      · exact h.jobs_collections key hold hold'
      · exact hnew.2.1 hjob
    · exact hnew.2.1 hcollection
  parked_collections key hpark hcollection := by
    obtain hold | hnew := hparked key hpark
    · obtain hold' | hnew := hcollections key hcollection
      · exact h.parked_collections key hold hold'
      · exact hnew.2.2 hpark
    · exact hnew.1 hcollection
  split key hkey := by
    obtain htenant | hjob | hpark := hkey
    · exact (htenants key htenant).elim (fun hold => h.split key (.inl hold)) (·.2.2)
    · exact (hjobs key hjob).elim (fun hold => h.split key (.inr (.inl hold))) (·.2.2)
    · exact (hparked key hpark).elim (fun hold => h.split key (.inr (.inr hold))) (·.2)
  last := h.last
  started := h.started

theorem insertJob (job : TenantJob) (hidle : r.Idle key) (hsplit : (splitKey key).isSome) :
    ({ r with jobs := r.jobs.insert key job } : Reconciler).Orderly :=
  h.replace (fun _ => .inl) (fun _ hjob => (mem_or_eq_of_mem_insert hjob).imp_right
    (by rintro rfl; exact ⟨hidle.tenants, hidle.collections, hsplit⟩)) (fun _ => .inl) (fun _ => .inl)

theorem insertTenant (tenant : Tenant) (hjob : key ∉ r.jobs) (hcollection : key ∉ r.collections)
    (hsplit : (splitKey key).isSome) :
    ({ r with tenants := r.tenants.insert key tenant } : Reconciler).Orderly :=
  h.replace (fun _ htenant => (mem_or_eq_of_mem_insert htenant).imp_right
    (by rintro rfl; exact ⟨hjob, hcollection, hsplit⟩)) (fun _ => .inl) (fun _ => .inl) (fun _ => .inl)

theorem insertParked (parked : Parked) (hcollection : key ∉ r.collections)
    (hsplit : (splitKey key).isSome) :
    ({ r with parked := r.parked.insert key parked } : Reconciler).Orderly :=
  h.replace (fun _ => .inl) (fun _ => .inl) (fun _ => .inl) (fun _ hparked =>
    (mem_or_eq_of_mem_insert hparked).imp_right (by rintro rfl; exact ⟨hcollection, hsplit⟩))

theorem insertCollection (job : CollectionJob) (htenant : key ∉ r.tenants) (hjob : key ∉ r.jobs)
    (hparked : key ∉ r.parked) :
    ({ r with collections := r.collections.insert key job } : Reconciler).Orderly :=
  h.replace (fun _ => .inl) (fun _ => .inl) (fun _ hcollection =>
    (mem_or_eq_of_mem_insert hcollection).imp_right (by rintro rfl; exact ⟨htenant, hjob, hparked⟩))
    (fun _ => .inl)

/-- Tables that only lose keys. -/
theorem restrict {tenants : TreeMap String Tenant} {jobs : TreeMap String TenantJob}
    {collections : TreeMap String CollectionJob} {parked : TreeMap String Parked}
    (htenants : ∀ key ∈ tenants, key ∈ r.tenants) (hjobs : ∀ key ∈ jobs, key ∈ r.jobs)
    (hcollections : ∀ key ∈ collections, key ∈ r.collections)
    (hparked : ∀ key ∈ parked, key ∈ r.parked) :
    ({ r with tenants := tenants, jobs := jobs, collections := collections, parked := parked } :
      Reconciler).Orderly :=
  h.replace (fun key hkey => .inl (htenants key hkey)) (fun key hkey => .inl (hjobs key hkey))
    (fun key hkey => .inl (hcollections key hkey)) (fun key hkey => .inl (hparked key hkey))

theorem eraseTenant : ({ r with tenants := r.tenants.erase key } : Reconciler).Orderly :=
  h.restrict (fun _ => TreeMap.mem_of_mem_erase) (fun _ => id) (fun _ => id) (fun _ => id)

theorem eraseJob : ({ r with jobs := r.jobs.erase key } : Reconciler).Orderly :=
  h.restrict (fun _ => id) (fun _ => TreeMap.mem_of_mem_erase) (fun _ => id) (fun _ => id)

theorem eraseParked : ({ r with parked := r.parked.erase key } : Reconciler).Orderly :=
  h.restrict (fun _ => id) (fun _ => id) (fun _ => id) (fun _ => TreeMap.mem_of_mem_erase)

theorem logged {start : Start} (hsound : start.Sound) : (r.logged start).Orderly where
  toExclusive := ⟨h.tenants_jobs, h.tenants_collections, h.jobs_collections⟩
  parked_collections := h.parked_collections
  split := h.split
  last := h.last
  started := forall_mem_cons.mpr ⟨hsound, h.started⟩

end

end Orderly

theorem slash_notMem_of_safeName {name : String} (h : safeName name = true) :
    '/' ∉ name.toList := by
  simp only [safeName, Bool.and_eq_true, all_eq_true] at h
  intro hmem
  have hslash := h.1.1.2 '/' hmem
  exact absurd hslash (by decide)

theorem isSome_splitKey_keyOf {org network : String} (h : safeNames org network = true) :
    (splitKey (keyOf org network)).isSome := by
  have horg : '/' ∉ org.toList := by
    simp only [safeNames, Bool.and_eq_true] at h
    exact slash_notMem_of_safeName h.1
  have htext : (keyOf org network).toList = org.toList ++ '/' :: network.toList := by
    simp [keyOf]
  rw [splitKey, htext, splitOnce_append_cons horg]
  rfl

theorem mem_wantedOf :
    key ∈ wantedOf desired ↔
      ∃ hosted ∈ desired.networks, hosted.namesAreSafe = true ∧ hosted.key = key := by
  rw [wantedOf, TreeMap.mem_ofList, contains_iff_mem]
  simp [and_assoc]

theorem isSome_splitKey_of_mem_wantedOf (h : key ∈ wantedOf desired) : (splitKey key).isSome := by
  obtain ⟨hosted, -, hsafe, rfl⟩ := mem_wantedOf.mp h
  exact isSome_splitKey_keyOf hsafe

/-! ## Starting jobs -/

/-- A job was started and the other tables are as they were. -/
def Starts (r : Reconciler) (outcome : Except String Reconciler) : Prop :=
  ∃ next, outcome = .ok next ∧ next.Orderly ∧
    next.tenants = r.tenants ∧ next.parked = r.parked ∧ next.collections = r.collections

theorem Starts.orderly {outcome : Except String Reconciler} (h : r.Starts outcome) :
    ∃ next, outcome = .ok next ∧ next.Orderly := by
  obtain ⟨next, hnext, horderly, -⟩ := h
  exact ⟨next, hnext, horderly⟩

theorem startJob_ok (kind : TenantJobKind) (dir : String) (h : r.Orderly) (hidle : r.Idle key)
    (hsplit : (splitKey key).isSome) : r.Starts (r.startJob key kind dir) :=
  ⟨_, if_neg hidle.jobs, h.insertJob _ hidle hsplit, rfl, rfl, rfl⟩

theorem startForget_ok (dir : String) (h : r.Orderly) (hidle : r.Idle key)
    (hsplit : (splitKey key).isSome) : r.Starts (r.startForget key dir) := by
  have hsound : (Start.removal key (r.collections.contains key)).Sound :=
    Bool.eq_false_iff.mpr fun h => hidle.collections (TreeMap.mem_iff_contains.mpr h)
  exact startJob_ok .forgetting dir (h.logged hsound)
    ⟨hidle.tenants, hidle.jobs, hidle.collections⟩ hsplit

theorem startProvision_ok (hosted : HostedNetwork) (h : r.Orderly) (hidle : r.Idle key)
    (hsplit : (splitKey key).isSome) : r.Starts (r.startProvision key hosted) := by
  have hsound : (Start.provision key (r.collections.contains key)).Sound :=
    Bool.eq_false_iff.mpr fun h => hidle.collections (TreeMap.mem_iff_contains.mpr h)
  exact startJob_ok .provisioning _ (h.logged hsound)
    ⟨hidle.tenants, hidle.jobs, hidle.collections⟩ hsplit

theorem Orderly.idle_of_tenant {tenant : Tenant} (h : r.Orderly)
    (htenant : r.tenants[key]? = some tenant) :
    ({ r with tenants := r.tenants.erase key } : Reconciler).Idle key := by
  have hmem : key ∈ r.tenants := mem_of_getElem? htenant
  exact ⟨by simp [TreeMap.mem_erase], h.tenants_jobs key hmem, h.tenants_collections key hmem⟩

theorem Orderly.idle_of_job {job : TenantJob} (h : r.Orderly) (hjob : r.jobs[key]? = some job) :
    ({ r with jobs := r.jobs.erase key } : Reconciler).Idle key := by
  have hmem : key ∈ r.jobs := mem_of_getElem? hjob
  refine ⟨fun htenant => h.tenants_jobs key htenant hmem, by simp [TreeMap.mem_erase],
    h.jobs_collections key hmem⟩

theorem parkOrForget_ok (dir : String) (now : Nat) (h : r.Orderly) (hidle : r.Idle key)
    (hsplit : (splitKey key).isSome) :
    ∃ next, r.parkOrForget key dir now = .ok next ∧ next.Orderly := by
  unfold parkOrForget
  split
  · exact ⟨_, rfl, h.insertParked _ hidle.collections hsplit⟩
  · exact (startForget_ok dir h hidle hsplit).orderly

theorem settle_ok (job : TenantJob) (now : Nat) (done : JobEnd) (h : r.Orderly)
    (hidle : r.Idle key) (hsplit : (splitKey key).isSome) :
    ∃ next, r.settle key job now done = .ok next ∧ next.Orderly := by
  have hforget := (startForget_ok job.dir h hidle hsplit).orderly
  have hinsert (tenant : Tenant) :=
    h.insertTenant tenant hidle.jobs hidle.collections hsplit
  cases done with
  | panicked =>
    unfold settle
    by_cases hkind : job.kind = .forgetting
    · rw [if_pos hkind]
      exact hforget
    · rw [if_neg hkind]
      exact (startJob_ok .cleaningAfterPanic job.dir h hidle hsplit).orderly
  | returned output =>
    cases output with
    | provisioned result =>
      cases result with
      | some tenant => exact ⟨_, rfl, hinsert tenant⟩
      | none => exact parkOrForget_ok job.dir now h hidle hsplit
    | reconciled tenant => exact ⟨_, rfl, hinsert tenant⟩
    | drained =>
      unfold settle
      by_cases hretire : job.kind = .draining true ∨ key ∉ r.wanted
      · rw [if_pos hretire]
        exact hforget
      · rw [if_neg hretire]
        exact ⟨r, rfl, h⟩
    | cancelled => exact ⟨r, rfl, h⟩
    | cleanedAfterPanic => exact parkOrForget_ok job.dir now h hidle hsplit
    | forgotten => exact ⟨_, rfl, h.eraseParked⟩

theorem reapJob_ok (now : Nat) (finished : String × JobEnd) (h : r.Orderly) :
    ∃ next, reapJob now r finished = .ok next ∧ next.Orderly := by
  unfold reapJob
  cases hjob : r.jobs[finished.1]? with
  | none => exact ⟨r, rfl, h⟩
  | some job =>
    have hmem : finished.1 ∈ r.jobs := mem_of_getElem? hjob
    exact settle_ok job now finished.2 h.eraseJob (h.idle_of_job hjob)
      (h.split _ (.inr (.inl hmem)))

theorem mem_of_mem_foldl_erase {β : Type*} {keys : List String} {table : TreeMap String β}
    (h : key ∈ keys.foldl TreeMap.erase table) : key ∈ table := by
  induction keys generalizing table with
  | nil => exact h
  | cons first keys ih => exact TreeMap.mem_of_mem_erase (ih h)

theorem reapKnownJobs_ok (now : Nat) (h : r.Orderly) :
    ∃ next, r.reapKnownJobs now = .ok next ∧ next.Orderly := by
  obtain ⟨next, hnext, horderly⟩ :=
    exists_foldlM_ok (fun (_ : List (String × JobEnd)) (r : Reconciler) => r.Orderly)
      (fun finished _ r h => reapJob_ok now finished h) h
  refine ⟨next.reapFinishedCollections, ?_, ?_⟩
  · rw [reapKnownJobs, reapFinishedJobs, hnext]
    rfl
  · exact horderly.restrict (fun _ => id) (fun _ => id) (fun _ => mem_of_mem_foldl_erase)
      (fun _ => id)

/-! ## The loops of a pass -/

section Loops

variable {wanted : TreeMap String HostedNetwork}

theorem drainGone_ok (key : String) (h : r.Orderly) :
    ∃ next, r.drainGone key = .ok next ∧ next.Orderly ∧
      ∀ other ∈ next.tenants, other ∈ r.tenants ∧ other ≠ key := by
  unfold drainGone
  cases htenant : r.tenants[key]? with
  | none =>
    refine ⟨_, rfl, h.eraseParked, fun other hother => ⟨hother, ?_⟩⟩
    rintro rfl
    rw [TreeMap.mem_iff_isSome_getElem?, htenant] at hother
    cases hother
  | some tenant =>
    have hmem : key ∈ r.tenants := mem_of_getElem? htenant
    obtain ⟨next, hnext, horderly, htenants, -, -⟩ := startJob_ok (.draining true) tenant.dir
      h.eraseTenant (h.idle_of_tenant htenant) (h.split key (.inl hmem))
    refine ⟨{ next with parked := next.parked.erase key }, ?_, horderly.eraseParked, ?_⟩
    · simp only [startDrain, hnext]
      rfl
    · intro other hother
      rw [show ({ next with parked := next.parked.erase key } : Reconciler).tenants =
        r.tenants.erase key from htenants, TreeMap.mem_erase] at hother
      exact ⟨hother.2, fun heq => hother.1 (by simp [heq])⟩

/-- While tenants are drained: one that is not wanted is still ahead. -/
structure Draining (wanted : TreeMap String HostedNetwork) (ahead : List String)
    (r : Reconciler) : Prop where
  orderly : r.Orderly
  tenants : ∀ key ∈ r.tenants, key ∈ wanted ∨ key ∈ ahead

theorem Draining.next {key : String} {ahead : List String} {r : Reconciler}
    (h : Draining wanted (key :: ahead) r) :
    ∃ next, r.drainGone key = .ok next ∧ Draining wanted ahead next := by
  obtain ⟨next, hnext, horderly, htenants⟩ := drainGone_ok key h.orderly
  refine ⟨next, hnext, horderly, fun other hother => ?_⟩
  obtain ⟨hmem, hne⟩ := htenants other hother
  exact (h.tenants other hmem).imp id fun hin => (mem_cons.mp hin).resolve_left hne

theorem mem_wanted_or_ahead {β : Type*} {table : TreeMap String β} (key : String)
    (h : key ∈ table) : key ∈ wanted ∨ key ∈ table.keys.filter (· ∉ wanted) := by
  by_cases hwanted : key ∈ wanted
  · exact .inl hwanted
  · exact .inr (mem_filter.mpr ⟨TreeMap.mem_keys.mpr h, by simpa using hwanted⟩)

theorem Orderly.draining (h : r.Orderly) : Draining wanted (r.tenants.keys.filter (· ∉ wanted)) r :=
  ⟨h, mem_wanted_or_ahead⟩

/-- While abandoned networks are forgotten: a park that is not wanted is still ahead, and
those ahead neither run nor are collected. -/
structure Forgetting (wanted : TreeMap String HostedNetwork) (ahead : List String)
    (r : Reconciler) : Prop where
  orderly : r.Orderly
  tenants : ∀ key ∈ r.tenants, key ∈ wanted
  parked : ∀ key ∈ r.parked, key ∈ wanted ∨ key ∈ ahead
  idle : ∀ key ∈ ahead, key ∉ wanted ∧ key ∉ r.collections ∧ (splitKey key).isSome

theorem Forgetting.next {key : String} {ahead : List String} {r : Reconciler}
    (h : Forgetting wanted (key :: ahead) r) :
    ∃ next, r.forgetAbandoned key = .ok next ∧ Forgetting wanted ahead next := by
  obtain ⟨hwanted, hcollection, hsplit⟩ := h.idle key mem_cons_self
  have hidle (other : String) (hother : other ∈ ahead) :=
    h.idle other (mem_cons_of_mem _ hother)
  have hparked (other : String) (hother : other ∈ r.parked.erase key) :
      other ∈ wanted ∨ other ∈ ahead := by
    rw [TreeMap.mem_erase] at hother
    refine (h.parked other hother.2).imp id fun hin => (mem_cons.mp hin).resolve_left ?_
    rintro rfl
    simp at hother
  unfold forgetAbandoned
  by_cases hjob : key ∈ r.jobs
  · rw [if_pos hjob]
    exact ⟨_, rfl, h.orderly.eraseParked, h.tenants, hparked, hidle⟩
  · rw [if_neg hjob]
    obtain ⟨⟨org, network⟩, hnames⟩ := Option.isSome_iff_exists.mp hsplit
    have herased : ({ r with parked := r.parked.erase key } : Reconciler).Orderly :=
      h.orderly.eraseParked
    obtain ⟨next, hnext, horderly, htenants, hnextParked, hcollections⟩ :=
      startForget_ok (r.tenantDir org network) herased
        ⟨fun htenant => hwanted (h.tenants key htenant), hjob, hcollection⟩ hsplit
    refine ⟨next, ?_, horderly, ?_, ?_, ?_⟩
    · rw [hnames]
      exact hnext
    · rw [htenants]
      exact h.tenants
    · rw [hnextParked]
      exact hparked
    · rw [hcollections]
      exact hidle

theorem Draining.forgetting (h : Draining wanted [] r) :
    Forgetting wanted (r.parked.keys.filter (· ∉ wanted)) r where
  orderly := h.orderly
  tenants key hkey := (h.tenants key hkey).resolve_right (by simp)
  parked := mem_wanted_or_ahead
  idle key hkey := by
    obtain ⟨hmem, hnot⟩ := mem_filter.mp hkey
    have hparked := TreeMap.mem_keys.mp hmem
    exact ⟨by simpa using hnot, h.orderly.parked_collections key hparked,
      h.orderly.split key (.inr (.inr hparked))⟩

/-- While tenants are restarted: all that runs or waits is wanted, and those ahead may be
parked. -/
structure Restarting (wanted : TreeMap String HostedNetwork) (ahead : List String)
    (r : Reconciler) : Prop where
  orderly : r.Orderly
  tenants : ∀ key ∈ r.tenants, key ∈ wanted
  parked : ∀ key ∈ r.parked, key ∈ wanted
  ahead : ∀ key ∈ ahead, key ∈ wanted ∧ key ∉ r.collections ∧ (splitKey key).isSome

theorem Restarting.next {key : String} {ahead : List String} {r : Reconciler} (now : Nat)
    (h : Restarting wanted (key :: ahead) r) :
    ∃ next, restartFailing now r key = .ok next ∧ Restarting wanted ahead next := by
  obtain ⟨hwanted, hcollection, hsplit⟩ := h.ahead key mem_cons_self
  have hahead (other : String) (hother : other ∈ ahead) :=
    h.ahead other (mem_cons_of_mem _ hother)
  have horderly := h.orderly.insertParked (.afterLoop r.parked[key]? now) hcollection hsplit
  have hparked (other : String)
      (hother : other ∈ r.parked.insert key (.afterLoop r.parked[key]? now)) :
      other ∈ wanted := by
    obtain rfl | hother := by simpa [TreeMap.mem_insert] using hother
    · exact hwanted
    · exact h.parked other hother
  unfold restartFailing
  cases htenant : r.tenants[key]? with
  | none => exact ⟨_, by simp only [htenant], horderly, h.tenants, hparked, hahead⟩
  | some tenant =>
    obtain ⟨next, hnext, hdone, htenants, hnextParked, hcollections⟩ :=
      startJob_ok (.draining false) tenant.dir horderly.eraseTenant
        (horderly.idle_of_tenant htenant) hsplit
    refine ⟨next, ?_, hdone, ?_, ?_, ?_⟩
    · simp only [htenant]
      exact hnext
    · rw [htenants]
      exact fun other hother => h.tenants other (TreeMap.mem_of_mem_erase hother)
    · rw [hnextParked]
      exact hparked
    · rw [hcollections]
      exact hahead

theorem Forgetting.restarting (h : Forgetting wanted [] r) :
    Restarting wanted
      ((r.tenants.toList.filter fun entry => entry.2.failedLoop).map Prod.fst) r where
  orderly := h.orderly
  tenants := h.tenants
  parked key hkey := (h.parked key hkey).resolve_right (by simp)
  ahead key hkey := by
    obtain ⟨⟨_, tenant⟩, hentry, rfl⟩ := mem_map.mp hkey
    have hfound := TreeMap.mem_toList_iff_getElem?_eq_some.mp (mem_filter.mp hentry).1
    have hmem := mem_of_getElem? hfound
    exact ⟨h.tenants _ hmem, h.orderly.tenants_collections _ hmem, h.orderly.split _ (.inl hmem)⟩

/-- While jobs are given to wanted networks: every park is a wanted one. -/
structure Scheduling (wanted : TreeMap String HostedNetwork) (r : Reconciler) : Prop where
  orderly : r.Orderly
  parked : ∀ key ∈ r.parked, key ∈ wanted

/-- A job started where the parks are the same. -/
theorem Scheduling.starts {s : Reconciler} {outcome : Except String Reconciler}
    (h : Scheduling wanted r) (hstart : s.Starts outcome) (hparked : s.parked = r.parked) :
    ∃ next, outcome = .ok next ∧ Scheduling wanted next := by
  obtain ⟨next, hnext, horderly, -, hsame, -⟩ := hstart
  refine ⟨next, hnext, horderly, ?_⟩
  rw [hsame, hparked]
  exact h.parked

theorem Scheduling.reconcileStanding (key : String) (h : Scheduling wanted r) :
    ∃ next, r.reconcileStanding key = .ok next ∧ Scheduling wanted next := by
  unfold Reconciler.reconcileStanding
  cases htenant : r.tenants[key]? with
  | none => exact ⟨r, rfl, h⟩
  | some tenant =>
    have hmem : key ∈ r.tenants := mem_of_getElem? htenant
    exact h.starts (startJob_ok .reconciling tenant.dir h.orderly.eraseTenant
      (h.orderly.idle_of_tenant htenant) (h.orderly.split key (.inl hmem))) rfl

theorem Scheduling.provisionWanted {r : Reconciler} (now : Nat) {entry : String × HostedNetwork}
    (h : Scheduling wanted r) (hsplit : (splitKey entry.1).isSome) :
    ∃ next, provisionWanted now r entry = .ok next ∧ Scheduling wanted next := by
  unfold Reconciler.provisionWanted
  split
  · exact ⟨r, rfl, h⟩
  · rename_i hbusy
    simp only [not_or] at hbusy
    obtain ⟨htenant, hjob, hcollection⟩ := hbusy
    split
    · exact ⟨r, rfl, h⟩
    · exact h.starts (startProvision_ok entry.2 h.orderly ⟨htenant, hjob, hcollection⟩ hsplit) rfl

/-- A network that the document of this pass does not host is not parked, so nothing of it is
left when its collection starts. -/
theorem Scheduling.collect {r : Reconciler} {poll : Poll} {desired : Desired} {due : Collectable}
    (h : Scheduling (wantedOf desired) r) (hanswered : poll.answered = true)
    (hhosted : ∀ hosted ∈ desired.networks, hosted.key ≠ due.key)
    (hsafe : due.namesAreSafe = true) :
    ∃ next, collect poll desired r due = .ok next ∧ Scheduling (wantedOf desired) next := by
  unfold Reconciler.collect
  by_cases hlive : due.key ∈ r.tenants ∨ due.key ∈ r.jobs
  · rw [if_pos hlive]
    exact ⟨r, rfl, h⟩
  rw [if_neg hlive]
  obtain ⟨htenant, hjob⟩ := not_or.mp hlive
  by_cases hcollection : due.key ∈ r.collections
  · rw [if_pos hcollection]
    exact ⟨r, rfl, h⟩
  rw [if_neg hcollection]
  simp only
  cases hdirectory : r.directories (r.tenantDir due.org due.network) with
  | unreadable => exact ⟨r, rfl, h⟩
  | present =>
    exact h.starts (startForget_ok (r.tenantDir due.org due.network) h.orderly
      ⟨htenant, hjob, hcollection⟩ (isSome_splitKey_keyOf hsafe)) rfl
  | missing =>
    have hpark : due.key ∉ r.parked := by
      intro hmem
      obtain ⟨hosted, hin, -, heq⟩ := mem_wantedOf.mp (h.parked _ hmem)
      exact hhosted hosted hin heq
    have hsound : (Start.collection due.key poll desired .missing).Sound :=
      ⟨hanswered, rfl, hhosted⟩
    exact ⟨_, rfl, (h.orderly.logged hsound).insertCollection _ htenant hjob hpark, h.parked⟩

end Loops

/-! ## Passes -/

theorem startCollections_ok (h : Scheduling (wantedOf desired) r)
    (hanswered : poll.answered = true) (hapart : desired.Apart) :
    ∃ next, r.startCollections poll desired = .ok next ∧ next.Orderly := by
  let Collecting (ahead : List Collectable) (r : Reconciler) : Prop :=
    Scheduling (wantedOf desired) r ∧ ∀ due ∈ ahead, due ∈ desired.collect ∧ due.namesAreSafe = true
  have hnext (due : Collectable) (ahead : List Collectable) (r : Reconciler)
      (h : Collecting (due :: ahead) r) :
      ∃ next, collect poll desired r due = .ok next ∧ Collecting ahead next := by
    obtain ⟨hdue, hsafe⟩ := h.2 due mem_cons_self
    obtain ⟨next, hnext, hscheduling⟩ :=
      h.1.collect hanswered (fun hosted hin heq => hapart due hdue hosted hin heq.symm) hsafe
    exact ⟨next, hnext, hscheduling, fun other hother => h.2 other (mem_cons_of_mem _ hother)⟩
  have hstart : Collecting (collectableOf desired) r :=
    ⟨h, fun due hdue => mem_filter.mp hdue⟩
  obtain ⟨next, hloop, hdone, -⟩ := exists_foldlM_ok Collecting hnext hstart
  exact ⟨next, hloop, hdone.orderly⟩

/-- The loops of a pass up to the collections. -/
theorem schedule_ok (desired : Desired) (now : Nat) (h : r.Orderly) :
    ∃ drained forgotten restarted standing scheduled : Reconciler,
      (r.tenants.keys.filter (· ∉ wantedOf desired)).foldlM drainGone r = .ok drained ∧
      (drained.parked.keys.filter (· ∉ wantedOf desired)).foldlM forgetAbandoned drained =
        .ok forgotten ∧
      ((forgotten.tenants.toList.filter fun entry => entry.2.failedLoop).map Prod.fst).foldlM
        (restartFailing now) forgotten = .ok restarted ∧
      (restarted.tenants.keys.filter (· ∈ wantedOf desired)).foldlM reconcileStanding restarted =
        .ok standing ∧
      (wantedOf desired).toList.foldlM (provisionWanted now) standing = .ok scheduled ∧
      Scheduling (wantedOf desired) scheduled := by
  obtain ⟨drained, hdrained, hdraining⟩ :=
    exists_foldlM_ok (Draining (wantedOf desired)) (fun _ _ _ h => h.next) h.draining
  obtain ⟨forgotten, hforgotten, hforgetting⟩ :=
    exists_foldlM_ok (Forgetting (wantedOf desired)) (fun _ _ _ h => h.next) hdraining.forgetting
  obtain ⟨restarted, hrestarted, hrestarting⟩ :=
    exists_foldlM_ok (Restarting (wantedOf desired)) (fun _ _ _ h => h.next now)
      hforgetting.restarting
  have hscheduling : Scheduling (wantedOf desired) restarted :=
    ⟨hrestarting.orderly, hrestarting.parked⟩
  obtain ⟨standing, hstanding, hreconciled⟩ :=
    exists_foldlM_ok (fun (_ : List String) => Scheduling (wantedOf desired))
      (fun key _ _ h => h.reconcileStanding key) hscheduling
  let Provisioning (ahead : List (String × HostedNetwork)) (r : Reconciler) : Prop :=
    Scheduling (wantedOf desired) r ∧ ∀ entry ∈ ahead, (splitKey entry.1).isSome
  have hnext (entry : String × HostedNetwork) (ahead : List (String × HostedNetwork))
      (r : Reconciler) (h : Provisioning (entry :: ahead) r) :
      ∃ next, provisionWanted now r entry = .ok next ∧ Provisioning ahead next := by
    obtain ⟨next, hnext, hdone⟩ := h.1.provisionWanted now (h.2 entry mem_cons_self)
    exact ⟨next, hnext, hdone, fun other hother => h.2 other (mem_cons_of_mem _ hother)⟩
  have hstart : Provisioning (wantedOf desired).toList standing := by
    refine ⟨hreconciled, fun entry hentry => ?_⟩
    have hfound := TreeMap.mem_toList_iff_getElem?_eq_some.mp hentry
    have hmem := mem_of_getElem? hfound
    exact isSome_splitKey_of_mem_wantedOf hmem
  obtain ⟨scheduled, hscheduled, hdone, -⟩ := exists_foldlM_ok Provisioning hnext hstart
  exact ⟨drained, forgotten, restarted, standing, scheduled, hdrained, hforgotten, hrestarted,
    hstanding, hscheduled, hdone⟩

theorem act_ok {fresh : Bool} (now : Nat) (h : r.Orderly)
    (hfresh : fresh = true → poll.answered = true ∧ desired.Apart) :
    ∃ next, r.act poll desired fresh now = .ok next ∧ next.Orderly := by
  have hstart : ({ r with wanted := (wantedOf desired).keys } : Reconciler).Orderly :=
    { h with }
  obtain ⟨drained, forgotten, restarted, standing, scheduled, hdrained, hforgotten, hrestarted,
    hstanding, hscheduled, hscheduling⟩ := schedule_ok desired now hstart
  have hact : r.act poll desired fresh now =
      if fresh then scheduled.startCollections poll desired else .ok scheduled := by
    simp only [act, hdrained, hforgotten, hrestarted, hstanding, hscheduled, bind, Except.bind]
  rw [hact]
  cases fresh with
  | false => exact ⟨scheduled, rfl, hscheduling.orderly⟩
  | true =>
    obtain ⟨hanswered, hapart⟩ := hfresh rfl
    exact startCollections_ok hscheduling hanswered hapart

theorem Orderly.countEmpty (h : r.Orderly) (fresh : Bool) : (r.countEmpty fresh).Orderly := by
  cases fresh with
  | false => exact h
  | true => exact { h with }

theorem pass_ok {fresh : Bool} (now : Nat) (h : r.Orderly)
    (hfresh : fresh = true → poll.answered = true ∧ desired.Apart) :
    ∃ next, r.pass poll desired fresh now = .ok next ∧ next.Orderly := by
  obtain ⟨reaped, hreaped, horderly⟩ := reapKnownJobs_ok now h
  simp only [pass, hreaped, bind, Except.bind]
  split
  · have hcounted := horderly.countEmpty fresh
    split
    · exact ⟨_, rfl, hcounted⟩
    · exact act_ok now hcounted hfresh
  · have hreset : ({ reaped with emptyAnswers := 0 } : Reconciler).Orderly := { horderly with }
    exact act_ok now hreset hfresh

end Reconciler

/-- An answer that lists no network both as hosted and as due for collection. -/
def Poll.Apart : Poll → Prop
  | .changed desired => desired.Apart
  | .unchanged | .unreachable => True

instance : ∀ poll : Poll, Decidable poll.Apart
  | .changed desired => inferInstanceAs (Decidable desired.Apart)
  | .unchanged | .unreachable => isTrue trivial

namespace Reconciler

variable {r : Reconciler} {poll : Poll}

theorem Orderly.desired (cached : Option (Option Desired)) (h : r.Orderly) (hapart : poll.Apart) :
    (r.desired poll cached).2.Orderly := by
  cases poll with
  | changed answer =>
    refine { h with last := ?_ }
    rintro _ ⟨⟩
    exact hapart
  | unchanged | unreachable =>
    unfold Reconciler.desired
    cases r.last <;> exact h

/-- A document is fresh only if this poll was answered, and every answer is apart. -/
theorem Orderly.answered_of_fresh {cached : Option (Option Desired)} {document : Desired}
    (h : r.Orderly) (hapart : poll.Apart)
    (hdesired : (r.desired poll cached).1 = some (some (document, true))) :
    poll.answered = true ∧ document.Apart := by
  unfold Reconciler.desired at hdesired
  cases poll with
  | changed answer =>
    obtain rfl : answer = document := by simpa using hdesired
    exact ⟨rfl, hapart⟩
  | unchanged =>
    cases hlast : r.last with
    | some answer =>
      obtain rfl : answer = document := by simpa [hlast] using hdesired
      exact ⟨rfl, h.last answer hlast⟩
    | none => simp [hlast] at hdesired
  | unreachable => cases hlast : r.last <;> simp [hlast] at hdesired

theorem tick_ok (cached : Option (Option Desired)) (now : Nat) (h : r.Orderly)
    (hapart : poll.Apart) : ∃ next, r.tick poll cached now = .ok next ∧ next.Orderly := by
  have hheld := h.desired cached hapart
  have hfresh (document : Desired) := @Orderly.answered_of_fresh r poll cached document h hapart
  unfold tick
  generalize r.desired poll cached = answer at hheld hfresh ⊢
  rcases answer with ⟨_ | _ | ⟨document, fresh⟩, held⟩
  · exact ⟨held, rfl, hheld⟩
  · exact ⟨held, rfl, hheld⟩
  · refine pass_ok now hheld ?_
    rintro rfl
    exact hfresh document rfl

end Reconciler

/-! ## Whole runs -/

/-- Every answer of the control plane keeps hosted networks and due collections apart. -/
def AnswersApart (_ : World) : Event → Prop
  | .tick poll _ _ => poll.Apart
  | _ => True

instance (world : World) : ∀ event, Decidable (AnswersApart world event)
  | .tick poll _ _ => inferInstanceAs (Decidable poll.Apart)
  | .wake _ | .jobEnds _ _ | .collectionEnds _ | .loopStops _ | .directory _ _ => isTrue trivial

/-- The reconciler has not panicked and its tables are in order. -/
def World.Orderly (world : World) : Prop :=
  ∃ r, world = .running r ∧ r.Orderly

theorem World.Orderly.step {world next : World} {event : Event} (h : world.Orderly)
    (hapart : AnswersApart world event) (hstep : step world event = some next) : next.Orderly := by
  obtain ⟨r, rfl, h⟩ := h
  cases event with
  | tick poll cached now =>
    obtain ⟨after, hafter, horderly⟩ := Reconciler.tick_ok cached now h hapart
    cases hstep
    exact ⟨after, by rw [hafter]; rfl, horderly⟩
  | wake now =>
    obtain ⟨after, hafter, horderly⟩ := Reconciler.reapKnownJobs_ok now h
    cases hstep
    exact ⟨after, by rw [hafter]; rfl, horderly⟩
  | jobEnds key done =>
    obtain ⟨job, hjob, hends⟩ := Option.bind_eq_some_iff.mp hstep
    obtain ⟨-, rfl⟩ := guard_eq_some hends
    have hmem : key ∈ r.jobs := Reconciler.mem_of_getElem? hjob
    exact ⟨_, rfl, h.restrict (fun _ => id) (Reconciler.mem_of_mem_insert hmem) (fun _ => id)
      (fun _ => id)⟩
  | collectionEnds key =>
    obtain ⟨hmem, rfl⟩ := guard_eq_some hstep
    exact ⟨_, rfl, h.restrict (fun _ => id) (fun _ => id) (Reconciler.mem_of_mem_insert hmem)
      (fun _ => id)⟩
  | loopStops key =>
    obtain ⟨tenant, htenant, rfl⟩ := Option.map_eq_some_iff.mp hstep
    have hmem : key ∈ r.tenants := Reconciler.mem_of_getElem? htenant
    exact ⟨_, rfl, h.restrict (Reconciler.mem_of_mem_insert hmem) (fun _ => id) (fun _ => id)
      (fun _ => id)⟩
  | directory path metadata =>
    cases hstep
    exact ⟨_, rfl, { h with }⟩

def prod : HostedNetwork := ⟨"acme", "prod"⟩

def hostingProd : Desired := ⟨[prod], []⟩

/-- The same network, also listed as due for collection. -/
def hostingAndCollectingProd : Desired := ⟨[prod], [⟨"acme", "prod"⟩]⟩

def hostingOther : Desired := ⟨[⟨"acme", "other"⟩], []⟩

/-- A provision that fails parks the network. -/
def parksProd : List Event :=
  [.tick (.changed hostingProd) (some none) 0,
    .jobEnds "acme/prod" (.returned (.provisioned none)), .wake 1]

/-- The network is offboarded: its local copy is removed, and then its storage collected. -/
def offboardsProd : List Event :=
  parksProd ++
    [.tick (.changed ⟨[⟨"acme", "other"⟩], [⟨"acme", "prod"⟩]⟩) (some none) 2,
      .jobEnds "acme/prod" (.returned .forgotten), .tick .unchanged (some none) 3]

/-- The network is collected while it is hosted, and then no longer hosted. -/
def collectsHosted : List Event :=
  parksProd ++
    [.tick (.changed hostingAndCollectingProd) (some none) 2,
      .tick (.changed hostingOther) (some none) 3]

def World.reconciler : World → Option Reconciler
  | .running r => some r
  | .panicked _ => none

theorem exists_running {α : Type*} {world : Option World} {look : Reconciler → α} {seen : α}
    (h : (world.bind World.reconciler).map look = some seen) :
    ∃ r, world = some (.running r) ∧ look r = seen := by
  obtain ⟨r, hworld, hlook⟩ := Option.map_eq_some_iff.mp h
  obtain ⟨reached, rfl, hreached⟩ := Option.bind_eq_some_iff.mp hworld
  cases reached with
  | running r' =>
    obtain rfl := Option.some.inj hreached
    exact ⟨r', rfl, hlook⟩
  | panicked message => exact absurd hreached (by simp [World.reconciler])

end Synch.Hosting
