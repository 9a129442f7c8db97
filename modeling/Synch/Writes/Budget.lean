import Mathlib.Algebra.Order.BigOperators.Group.Finset
import Synch.Support.Lists
import Synch.Writes.Tenant

/-!
# Budgets under concurrent writes

The staging counter and the live reservations always add up to the staging total.  The org's
budget is read once, before a write streams: what other admitted writes are still to add is
not part of that reading.  It is kept when every admission leaves room for them.
-/

namespace Synch.Writes

open List Synch.Support

/-! ## What a tenant holds or is about to -/

/-- The commit is still to publish its object, or to fail. -/
def CommitTask.running : CommitTask → Bool
  | .finished _ => false
  | _ => true

namespace Write

/-- The bytes an admitted write may still add. -/
def claim (write : Write) : Nat :=
  match write.phase with
  | .admitted | .streaming _ => write.size
  | .committing task | .ended _ (some task) => if task.running then write.size else 0
  | _ => 0

theorem claim_le (write : Write) : write.claim ≤ write.size := by
  unfold claim
  split
  · exact le_rfl
  · exact le_rfl
  · split <;> omega
  · split <;> omega
  · exact Nat.zero_le _

theorem claim_ended_le (write : Write) (outcome : Outcome) :
    ({ write with phase := .ended outcome write.phase.task } : Write).claim ≤ write.claim := by
  obtain ⟨space, path, size, phase⟩ := write
  cases phase with
  | ended _ task => cases task <;> exact le_rfl
  | committing task => exact le_rfl
  | _ => exact Nat.zero_le _

theorem reservation_setTask (write : Write) (next : CommitTask) :
    ({ write with phase := write.phase.setTask next } : Write).reservation =
      write.reservation := by
  obtain ⟨space, path, size, phase⟩ := write
  cases phase <;> rfl

/-- While its commit runs, a write may still add all its bytes, and afterwards none. -/
theorem claim_setTask
    {write : Write} {task : CommitTask} (next : CommitTask) (h : write.phase.task = some task) :
    write.claim = (if task.running then write.size else 0) ∧
      ({ write with phase := write.phase.setTask next } : Write).claim =
        if next.running then write.size else 0 := by
  obtain ⟨space, path, size, phase⟩ := write
  cases phase with
  | committing _ =>
    cases h
    exact ⟨rfl, rfl⟩
  | ended _ _ =>
    obtain rfl := h
    exact ⟨rfl, rfl⟩
  | _ => exact absurd h (by simp [Phase.task])

theorem reservation_of_ended {write : Write} (h : write.Ended) : write.reservation = 0 := by
  obtain ⟨outcome, task, hphase⟩ := h
  simp [reservation, hphase]

end Write

namespace Store

/-- What the replicas of a store hold or name. -/
def named (store : Store) : Finset (String × Hash) :=
  (store.pins ∪ (store.entries.filterMap fun entry =>
    entry.content.map fun root => (entry.space, root)).toFinset).filter
      fun pin => pin.1 ∈ store.replicas

/-- The bytes of everything a store's replicas hold or are about to. -/
def namedBytes (store : Store) : Nat :=
  ∑ pin ∈ store.named, store.blobSize pin.2

/-- Nothing waits for a sweep: the replicas hold all durable content they name. -/
def Settled (store : Store) : Prop :=
  ∀ pin ∈ store.named, (store.blobs pin.2).isSome → pin ∈ store.pins

theorem mem_named {store : Store} {pin : String × Hash} :
    pin ∈ store.named ↔
      pin.1 ∈ store.replicas ∧
        (pin ∈ store.pins ∨
          ∃ entry ∈ store.entries, entry.space = pin.1 ∧ entry.content = some pin.2) := by
  obtain ⟨space, root⟩ := pin
  simp [named, and_comm]

theorem mem_durableContent {store : Store} {space : String} {pin : String × Hash}
    (h : pin ∈ store.durableContent space) :
    pin.1 = space ∧ ∃ entry ∈ store.entries, entry.space = space ∧ entry.content = some pin.2 := by
  obtain ⟨entry, hentry, hpin⟩ := mem_filterMap.mp h
  by_cases hspace : entry.space = space
  · rw [if_pos hspace] at hpin
    obtain ⟨root, hroot, hsome⟩ := Option.bind_eq_some_iff.mp hpin
    obtain ⟨_, _, rfl⟩ := Option.map_eq_some_iff.mp hsome
    exact ⟨rfl, entry, hentry, hspace, hroot⟩
  · simp [if_neg hspace] at hpin

variable (store : Store) (space : String)

/-- The coverage of all replicas counts every claim of a replica once. -/
theorem heldBytes_eq :
    store.heldBytes = ∑ pin ∈ store.pins with pin.1 ∈ store.replicas, store.blobSize pin.2 := by
  have hmaps : ∀ pin ∈ store.pins.filter fun pin => pin.1 ∈ store.replicas,
      pin.1 ∈ store.replicas.toFinset := by
    intro pin hpin
    exact mem_toFinset.mpr (Finset.mem_filter.mp hpin).2
  rw [heldBytes, ← sum_toFinset _ store.replicas_nodup, ← Finset.sum_fiberwise_of_maps_to hmaps]
  apply Finset.sum_congr rfl
  intro space hspace
  have hreplica := mem_toFinset.mp hspace
  apply Finset.sum_congr ?_ fun _ _ => rfl
  ext pin
  simp only [Finset.mem_filter]
  constructor
  · rintro ⟨hpin, rfl⟩
    exact ⟨⟨hpin, hreplica⟩, rfl⟩
  · rintro ⟨⟨hpin, -⟩, heq⟩
    exact ⟨hpin, heq⟩

theorem heldBytes_le_namedBytes : store.heldBytes ≤ store.namedBytes := by
  rw [heldBytes_eq]
  apply Finset.sum_le_sum_of_subset
  intro pin hpin
  obtain ⟨hmem, hreplica⟩ := Finset.mem_filter.mp hpin
  exact mem_named.mpr ⟨hreplica, .inl hmem⟩

theorem Settled.namedBytes_le {store : Store} (h : store.Settled) :
    store.namedBytes ≤ store.heldBytes := by
  have hsubset : store.pins.filter (fun pin => pin.1 ∈ store.replicas) ⊆ store.named := by
    intro pin hpin
    obtain ⟨hmem, hreplica⟩ := Finset.mem_filter.mp hpin
    exact mem_named.mpr ⟨hreplica, .inl hmem⟩
  rw [heldBytes_eq, namedBytes]
  apply le_of_eq
  symm
  apply Finset.sum_subset hsubset
  intro pin hnamed hnot
  -- a name that is not held is not durable, and so accounts for nothing
  have hreplica := (mem_named.mp hnamed).1
  have hnone : store.blobs pin.2 = none := by
    by_contra hsome
    have hpin := h pin hnamed (Option.isSome_iff_ne_none.mpr hsome)
    exact hnot (Finset.mem_filter.mpr ⟨hpin, hreplica⟩)
  simp [blobSize, hnone]

/-! ### What each change of the store does to it -/

theorem namedBytes_stageSpaceWants_le :
    (store.stageSpaceWants space).namedBytes ≤ store.namedBytes := by
  apply Finset.sum_le_sum_of_subset
  intro pin hpin
  obtain ⟨hreplica, hpin | hentry⟩ := mem_named.mp hpin
  · obtain hold | hnew := Finset.mem_union.mp hpin
    · exact mem_named.mpr ⟨hreplica, .inl hold⟩
    · obtain ⟨rfl, entry, hentry⟩ := mem_durableContent (mem_toFinset.mp hnew)
      exact mem_named.mpr ⟨hreplica, .inr ⟨entry, hentry⟩⟩
  · exact mem_named.mpr ⟨hreplica, .inr hentry⟩

theorem namedBytes_release_le (root : Hash) :
    (store.release space root).namedBytes ≤ store.namedBytes := by
  apply Finset.sum_le_sum_of_subset
  intro pin hpin
  obtain ⟨hreplica, hpin | hentry⟩ := mem_named.mp hpin
  · exact mem_named.mpr ⟨hreplica, .inl (Finset.mem_of_mem_erase hpin)⟩
  · exact mem_named.mpr ⟨hreplica, .inr hentry⟩

theorem namedBytes_retract_le (gone : Entry) :
    (store.retract gone).namedBytes ≤ store.namedBytes := by
  apply Finset.sum_le_sum_of_subset
  intro pin hpin
  obtain ⟨hreplica, hpin | ⟨entry, hentry, hnames⟩⟩ := mem_named.mp hpin
  · exact mem_named.mpr ⟨hreplica, .inl hpin⟩
  · exact mem_named.mpr ⟨hreplica, .inr ⟨entry, (mem_filter.mp hentry).1, hnames⟩⟩

/-- An ingest adds nothing to what is named, as long as no replica names bytes that had gone
and are back with it. -/
theorem namedBytes_ingest {store : Store} {root : Hash} (size : Nat)
    (h : store.blobs root = none → ∀ pin ∈ store.named, pin.2 ≠ root) :
    (store.ingest root size).namedBytes = store.namedBytes := by
  apply Finset.sum_congr rfl
  intro pin hpin
  by_cases hroot : pin.2 = root
  · have hsome : store.blobs root ≠ none := fun hnone => h hnone pin hpin hroot
    obtain ⟨held, hheld⟩ := Option.ne_none_iff_exists'.mp hsome
    simp [blobSize, ingest, hroot, hheld]
  · simp [blobSize, ingest, hroot]

theorem namedBytes_publish_le (path : String) (root : Hash) :
    (store.publish space path root).namedBytes ≤ store.namedBytes + store.blobSize root := by
  have hsubset : (store.publish space path root).named ⊆ insert (space, root) store.named := by
    intro pin hpin
    rw [Finset.mem_insert]
    obtain ⟨hreplica, hpin | ⟨entry, hentry, hspace, hcontent⟩⟩ := mem_named.mp hpin
    · exact .inr (mem_named.mpr ⟨hreplica, .inl hpin⟩)
    · obtain rfl | hentry := mem_cons.mp hentry
      · obtain rfl : root = pin.2 := Option.some.inj hcontent
        exact .inl (Prod.ext hspace.symm rfl)
      · exact .inr (mem_named.mpr ⟨hreplica, .inr
          ⟨entry, (mem_filter.mp hentry).1, hspace, hcontent⟩⟩)
  refine (Finset.sum_le_sum_of_subset hsubset).trans ?_
  change ∑ pin ∈ insert (space, root) store.named, store.blobSize pin.2 ≤ _
  by_cases hmem : (space, root) ∈ store.named
  · rw [Finset.insert_eq_of_mem hmem]
    exact Nat.le_add_right _ _
  · rw [Finset.sum_insert hmem, Nat.add_comm]
    exact le_rfl

end Store

/-! ## What a step does -/

namespace Tenant

/-- The bytes that admitted writes may still add. -/
def claimedBytes (tenant : Tenant) : Nat :=
  (tenant.writes.map Write.claim).sum

/-- What a step of one write does to its tenant. -/
inductive Moves (tenant : Tenant) (i : Nat) (write : Write) (action : Action) : Tenant → Prop
  | advances (next : Write)
      (reservation : next.reservation = write.reservation)
      (claim : next.claim ≤ write.claim) :
      Moves tenant i write action (tenant.advance i next)
  | takes (room : write.size ≤ tenant.free)
      (reservation : write.reservation = 0)
      (next : Write)
      (taken : next.reservation = write.size)
      (claim : next.claim ≤ write.claim) :
      Moves tenant i write action { tenant.advance i next with free := tenant.free - write.size }
  | skips (next : Write)
      (budget : tenant.budgetBytes = 0)
      (reservation : next.reservation = write.reservation) :
      Moves tenant i write action (tenant.advance i next)
  | admits (held : Nat)
      (action_eq : action = .check)
      (phase : write.phase = .measuring [] held)
      (fits : saturatingAdd held write.size ≤ tenant.budgetBytes) :
      Moves tenant i write action (tenant.advance i { write with phase := .admitted })
  | finishes (outcome : Outcome) : Moves tenant i write action (tenant.finish i write outcome)
  | ingests (root : Hash)
      (action_eq : action = .ingest root)
      (next : Write)
      (reservation : next.reservation = write.reservation)
      (claim : next.claim ≤ write.claim) :
      Moves tenant i write action
        { tenant.advance i next with store := tenant.store.ingest root write.size }
  | publishes (root : Hash)
      (size : tenant.store.blobs root = some write.size)
      (next : Write)
      (reservation : next.reservation = write.reservation)
      (claim : next.claim + write.size ≤ write.claim) :
      Moves tenant i write action
        { tenant.advance i next with
          store := tenant.store.publish write.space write.path root }

variable {write : Write} {action : Action} {tenant next : Tenant} {i : Nat} {event : Event}

theorem exchange_moves (tenant : Tenant) (i : Nat) {seen : Nat} (spurious : Bool)
    (hphase : write.phase = .reserving seen) :
    Moves tenant i write action (tenant.exchange i write seen spurious) := by
  obtain ⟨space, path, size, phase⟩ := write
  obtain rfl : phase = .reserving seen := hphase
  unfold exchange
  by_cases hroom : seen < size
  · rw [if_pos hroom]
    exact .finishes _
  · rw [if_neg hroom]
    split
    · exact .advances _ rfl le_rfl
    · rename_i hretry
      obtain ⟨-, hfree⟩ := not_or.mp hretry
      obtain rfl := not_not.mp hfree
      exact .takes (not_lt.mp hroom) rfl _ rfl le_rfl

theorem check_moves (tenant : Tenant) (i : Nat) {held : Nat}
    (hphase : write.phase = .measuring [] held) :
    Moves tenant i write .check (tenant.check i write held) := by
  unfold check
  by_cases hover : tenant.budgetBytes < saturatingAdd held write.size
  · rw [if_pos hover]
    exact .finishes _
  · rw [if_neg hover]
    exact .admits held rfl hphase (not_lt.mp hover)

theorem openWrite_moves (tenant : Tenant) (i : Nat) (refused : Option Refusal)
    (hphase : write.phase = .admitted) :
    Moves tenant i write action (tenant.openWrite i write refused) := by
  obtain ⟨space, path, size, phase⟩ := write
  obtain rfl : phase = .admitted := hphase
  cases refused with
  | some refusal => exact .finishes _
  | none =>
    by_cases hspace : space ∈ tenant.store.replicas
    · simp only [openWrite, if_pos hspace]
      exact .advances _ rfl le_rfl
    · simp only [openWrite, if_neg hspace]
      exact .finishes _

theorem chunk_moves (tenant : Tenant) (i : Nat) {received : Nat} (length : Nat)
    (refused : Option Refusal) (hphase : write.phase = .streaming received) :
    Moves tenant i write action (tenant.chunk i write received length refused) := by
  obtain ⟨space, path, size, phase⟩ := write
  obtain rfl : phase = .streaming received := hphase
  by_cases hover : size < saturatingAdd received length
  · simp only [chunk, if_pos hover]
    exact .finishes _
  · simp only [chunk, if_neg hover]
    cases refused with
    | some refusal => exact .finishes _
    | none => exact .advances _ rfl le_rfl

theorem commit_moves (tenant : Tenant) (i : Nat) {received : Nat}
    (hphase : write.phase = .streaming received) :
    Moves tenant i write action (tenant.commit i write received) := by
  obtain ⟨space, path, size, phase⟩ := write
  obtain rfl : phase = .streaming received := hphase
  by_cases hwhole : received ≠ size
  · simp only [Tenant.commit, if_pos hwhole]
    exact .finishes _
  · simp only [Tenant.commit, if_neg hwhole]
    exact .advances _ rfl le_rfl

theorem measure_moves (tenant : Tenant) (i : Nat) (hphase : write.phase = .reserved) :
    Moves tenant i write action (tenant.measure i write) := by
  obtain ⟨space, path, size, phase⟩ := write
  obtain rfl : phase = .reserved := hphase
  by_cases hbudget : tenant.budgetBytes = 0
  · simp only [measure, if_pos hbudget]
    exact .skips _ hbudget rfl
  · simp only [measure, if_neg hbudget]
    exact .advances _ rfl le_rfl

theorem actTask_moves (h : tenant.actTask i write action write.phase = some next) :
    Moves tenant i write action next := by
  generalize hphase : write.phase = phase at h
  unfold actTask at h
  split at h
  all_goals first
    | (obtain rfl := Option.some.inj h)
    | (exact absurd h (by simp))
  · refine .advances _ ?_ ?_
    · simp [Write.reservation, hphase]
    · simp [Write.claim]
  · exact exchange_moves tenant i _ hphase
  · exact measure_moves tenant i hphase
  · refine .advances _ ?_ ?_
    · simp [Write.reservation, hphase]
    · simp [Write.claim]
  · exact .finishes _
  · exact check_moves tenant i hphase
  · exact openWrite_moves tenant i _ hphase
  · exact chunk_moves tenant i _ _ hphase
  · exact .finishes _
  · exact .finishes _
  · exact commit_moves tenant i hphase
  · exact .finishes _
  · exact .finishes _

theorem commitFails_moves {task : CommitTask} (refusal : Refusal)
    (htask : write.phase.task = some task) :
    Moves tenant i write action (tenant.advance i
      { write with phase := write.phase.setTask (.finished (.refused refusal)) }) := by
  obtain ⟨-, hafter⟩ := Write.claim_setTask (.finished (.refused refusal)) htask
  refine .advances _ (write.reservation_setTask _) ?_
  rw [hafter]
  exact Nat.zero_le _

theorem actCommit_moves {task : CommitTask} (htask : write.phase.task = some task)
    (h : tenant.actCommit i write action task = some next) : Moves tenant i write action next := by
  unfold actCommit at h
  split at h
  · rename_i root
    cases h
    obtain ⟨hbefore, hafter⟩ := Write.claim_setTask (.publishing root) htask
    exact .ingests _ rfl _ (write.reservation_setTask _) (hafter.trans hbefore.symm).le
  · obtain ⟨hsize, rfl⟩ := guard_eq_some h
    obtain ⟨hbefore, hafter⟩ := Write.claim_setTask (.finished .committed) htask
    refine .publishes _ hsize _ (write.reservation_setTask _) ?_
    rw [hbefore, hafter]
    simp [CommitTask.running]
  · cases h
    exact commitFails_moves _ htask
  · cases h
    exact commitFails_moves _ htask
  · exact absurd h (by simp)

theorem act_moves (h : tenant.act i write action = some next) :
    Moves tenant i write action next := by
  have hcommit {action : Action}
      (h : (write.phase.task.bind fun task => tenant.actCommit i write action task) = some next) :
      Moves tenant i write action next := by
    obtain ⟨task, htask, hstep⟩ := Option.bind_eq_some_iff.mp h
    exact actCommit_moves htask hstep
  unfold act at h
  split at h
  · exact hcommit h
  · exact hcommit h
  · exact hcommit h
  · exact actTask_moves h

theorem reservedBytes_advance (next : Write) (hwrite : tenant.writes[i]? = some write) :
    (tenant.advance i next).reservedBytes + write.reservation =
      tenant.reservedBytes + next.reservation :=
  sum_map_set_add Write.reservation next hwrite

theorem claimedBytes_advance (next : Write) (hwrite : tenant.writes[i]? = some write) :
    (tenant.advance i next).claimedBytes + write.claim = tenant.claimedBytes + next.claim :=
  sum_map_set_add Write.claim next hwrite

/-! ## The staging budget -/

/-- The free room and the live reservations make up the staging total. -/
structure Balanced (tenant : Tenant) : Prop where
  sum : tenant.free + tenant.reservedBytes = tenant.staging
  word : tenant.staging ≤ maxCount

theorem Balanced.of_moves (h : tenant.Balanced) (hwrite : tenant.writes[i]? = some write)
    (hmoves : Moves tenant i write action next) : next.Balanced := by
  have hsum := h.sum
  cases hmoves with
  | advances next hreservation _ | skips next _ hreservation | ingests _ _ next hreservation _
  | publishes _ _ next hreservation _ =>
    have hset := reservedBytes_advance next hwrite
    refine ⟨?_, h.word⟩
    change tenant.free + (tenant.advance i next).reservedBytes = tenant.staging
    omega
  | takes hroom hnone next htaken _ =>
    have hset := reservedBytes_advance next hwrite
    refine ⟨?_, h.word⟩
    change tenant.free - write.size + (tenant.advance i next).reservedBytes = tenant.staging
    omega
  | admits held _ hphase _ =>
    have hset := reservedBytes_advance { write with phase := .admitted } hwrite
    have hsame : ({ write with phase := .admitted } : Write).reservation =
        write.reservation := by
      simp [Write.reservation, hphase]
    refine ⟨?_, h.word⟩
    change tenant.free + (tenant.advance i _).reservedBytes = tenant.staging
    omega
  | finishes outcome =>
    have hset := reservedBytes_advance
      { write with phase := .ended outcome write.phase.task } hwrite
    have hzero : ({ write with phase := .ended outcome write.phase.task } : Write).reservation =
        0 := rfl
    have hword := h.word
    refine ⟨?_, hword⟩
    change (tenant.free + write.reservation) % 2 ^ 64 +
      (tenant.advance i _).reservedBytes = tenant.staging
    -- the counter returns to at most the total, so the addition does not wrap
    rw [Nat.mod_eq_of_lt (by unfold maxCount at hword; omega)]
    omega

theorem Balanced.step (h : tenant.Balanced) (hstep : step tenant event = some next) :
    next.Balanced := by
  cases event with
  | put space path size =>
    obtain ⟨-, rfl⟩ := guard_eq_some hstep
    refine ⟨?_, h.word⟩
    rw [← h.sum]
    simp [reservedBytes, Write.reservation]
  | act i action =>
    obtain ⟨write, hwrite, hact⟩ := Option.bind_eq_some_iff.mp hstep
    exact h.of_moves hwrite (act_moves hact)
  | sweep space =>
    obtain ⟨-, rfl⟩ := guard_eq_some hstep
    exact ⟨h.sum, h.word⟩
  | release space root | retract entry =>
    cases hstep
    exact ⟨h.sum, h.word⟩

theorem Balanced.free_of_ended (h : tenant.Balanced)
    (hended : ∀ write ∈ tenant.writes, write.Ended) :
    tenant.free = tenant.staging := by
  have hzero : tenant.reservedBytes = 0 := by
    apply sum_eq_zero
    intro bytes hbytes
    obtain ⟨write, hwrite, rfl⟩ := mem_map.mp hbytes
    exact Write.reservation_of_ended (hended write hwrite)
  rw [← h.sum, hzero, Nat.add_zero]

/-! ## The org's budget -/

/-- What is held, what is named and what admitted writes may still add fit the budget. -/
structure Covered (tenant : Tenant) : Prop where
  fits : tenant.store.namedBytes + tenant.claimedBytes ≤ tenant.budgetBytes
  budget : tenant.budgetBytes ≠ 0

/-- The size of a write whose measurement lets it pass the budget. -/
def passing (tenant : Tenant) (i : Nat) : Option Nat :=
  match tenant.writes[i]? with
  | some ⟨_, _, size, .measuring [] held⟩ =>
    if saturatingAdd held size ≤ tenant.budgetBytes then some size else none
  | _ => none

/-- A write that passes leaves room for everything named and for the writes admitted before
it, and an ingest does not bring back bytes that some replica still names. -/
def LeavesRoom (tenant : Tenant) : Event → Prop
  | .act i .check =>
    ∀ size ∈ tenant.passing i,
      tenant.store.namedBytes + tenant.claimedBytes + size ≤ tenant.budgetBytes
  | .act _ (.ingest root) =>
    tenant.store.blobs root = none → ∀ pin ∈ tenant.store.named, pin.2 ≠ root
  | _ => True

instance (tenant : Tenant) (event : Event) : Decidable (tenant.LeavesRoom event) :=
  match event with
  | .act _ action =>
    match action with
    | .check => inferInstanceAs (Decidable (∀ _ ∈ _, _))
    | .ingest _ => inferInstanceAs (Decidable (_ → _))
    | .load | .exchange _ | .measure | .count | .coverageFails _ | .opened _ | .chunk _ _
    | .idle | .closed | .commit | .publish | .commitFails _ | .report | .abort =>
      isTrue trivial
  | .put _ _ _ | .sweep _ | .release _ _ | .retract _ => isTrue trivial

theorem Covered.of_moves (h : tenant.Covered) (hwrite : tenant.writes[i]? = some write)
    (hroom : tenant.LeavesRoom (.act i action)) (hmoves : Moves tenant i write action next) :
    next.Covered := by
  have hfits := h.fits
  cases hmoves with
  | advances next _ hclaim | takes _ _ next _ hclaim =>
    have hset := claimedBytes_advance next hwrite
    refine ⟨?_, h.budget⟩
    change tenant.store.namedBytes + (tenant.advance i next).claimedBytes ≤ tenant.budgetBytes
    omega
  | skips next hbudget _ => exact absurd hbudget h.budget
  | admits held hcheck hphase hpasses =>
    subst hcheck
    have hpassing : tenant.passing i = some write.size := by
      obtain ⟨space, path, size, phase⟩ := write
      obtain rfl : phase = .measuring [] held := hphase
      simp only [passing, hwrite]
      exact if_pos hpasses
    have hset := claimedBytes_advance { write with phase := .admitted } hwrite
    have hleaves := hroom write.size hpassing
    have hclaim := Write.claim_le { write with phase := .admitted }
    refine ⟨?_, h.budget⟩
    change tenant.store.namedBytes + (tenant.advance i _).claimedBytes ≤ tenant.budgetBytes
    simp only at hclaim
    omega
  | finishes outcome =>
    have hset := claimedBytes_advance { write with phase := .ended outcome write.phase.task } hwrite
    have hclaim := write.claim_ended_le outcome
    refine ⟨?_, h.budget⟩
    change tenant.store.namedBytes + (tenant.advance i _).claimedBytes ≤ tenant.budgetBytes
    omega
  | ingests root hingest next _ hclaim =>
    subst hingest
    have hset := claimedBytes_advance next hwrite
    have hnamed := Store.namedBytes_ingest write.size hroom
    refine ⟨?_, h.budget⟩
    change (tenant.store.ingest root write.size).namedBytes +
      (tenant.advance i next).claimedBytes ≤ tenant.budgetBytes
    omega
  | publishes root hsize next _ hclaim =>
    have hset := claimedBytes_advance next hwrite
    have hnamed := tenant.store.namedBytes_publish_le write.space write.path root
    have hblob : tenant.store.blobSize root = write.size := by
      simp [Store.blobSize, hsize]
    refine ⟨?_, h.budget⟩
    change (tenant.store.publish write.space write.path root).namedBytes +
      (tenant.advance i next).claimedBytes ≤ tenant.budgetBytes
    omega

theorem Covered.of_store (h : tenant.Covered) {store : Store}
    (hle : store.namedBytes ≤ tenant.store.namedBytes) :
    ({ tenant with store := store } : Tenant).Covered :=
  ⟨(Nat.add_le_add_right hle _).trans h.fits, h.budget⟩

theorem Covered.step (h : tenant.Covered) (hroom : tenant.LeavesRoom event)
    (hstep : step tenant event = some next) : next.Covered := by
  cases event with
  | put space path size =>
    obtain ⟨-, rfl⟩ := guard_eq_some hstep
    refine ⟨?_, h.budget⟩
    simpa [claimedBytes, Write.claim] using h.fits
  | act i action =>
    obtain ⟨write, hwrite, hact⟩ := Option.bind_eq_some_iff.mp hstep
    exact h.of_moves hwrite hroom (act_moves hact)
  | sweep space =>
    obtain ⟨-, rfl⟩ := guard_eq_some hstep
    exact h.of_store (tenant.store.namedBytes_stageSpaceWants_le space)
  | release space root =>
    cases hstep
    exact h.of_store (tenant.store.namedBytes_release_le space root)
  | retract entry =>
    cases hstep
    exact h.of_store (tenant.store.namedBytes_retract_le entry)

/-! ## Whole runs -/

/-- A tenant before its first write, within its budget. -/
structure Fresh (tenant : Tenant) : Prop where
  writes : tenant.writes = []
  free : tenant.free = tenant.staging
  word : tenant.staging ≤ maxCount
  budget : tenant.budgetBytes ≠ 0
  settled : tenant.store.Settled
  held : tenant.store.heldBytes ≤ tenant.budgetBytes

theorem Fresh.balanced (h : tenant.Fresh) : tenant.Balanced :=
  ⟨by simp [reservedBytes, h.writes, h.free], h.word⟩

theorem Fresh.covered (h : tenant.Fresh) : tenant.Covered where
  fits := by
    have hnamed := h.settled.namedBytes_le
    simp only [claimedBytes, h.writes, map_nil, sum_nil, Nat.add_zero]
    exact hnamed.trans h.held
  budget := h.budget

theorem limits_step (hstep : Writes.step tenant event = some next) :
    next.staging = tenant.staging ∧ next.budgetBytes = tenant.budgetBytes := by
  cases event with
  | act i action =>
    obtain ⟨write, -, hact⟩ := Option.bind_eq_some_iff.mp hstep
    cases act_moves hact <;> exact ⟨rfl, rfl⟩
  | put space path size | sweep space =>
    obtain ⟨-, rfl⟩ := guard_eq_some hstep
    exact ⟨rfl, rfl⟩
  | release space root | retract entry =>
    cases hstep
    exact ⟨rfl, rfl⟩

theorem limits_run
    {start finish : Tenant} {events : List Event} (hrun : run step start events = some finish) :
    finish.staging = start.staging ∧ finish.budgetBytes = start.budgetBytes := by
  refine run_invariant
    (fun tenant => tenant.staging = start.staging ∧ tenant.budgetBytes = start.budgetBytes)
    ?_ ⟨rfl, rfl⟩ hrun
  intro tenant event next hlimits hstep
  obtain ⟨hstaging, hbudget⟩ := limits_step hstep
  exact ⟨hstaging.trans hlimits.1, hbudget.trans hlimits.2⟩

end Tenant

/-- A tenant with an empty space and a budget of ten bytes. -/
def emptyTenant : Tenant where
  store :=
    { own := "cloud-1"
      replicas := ["docs"]
      replicas_nodup := by decide
      entries := []
      blobs := fun _ => none
      pins := ∅ }
  staging := 100
  budgetBytes := 10
  free := 100
  writes := []

theorem emptyTenant_fresh : emptyTenant.Fresh where
  writes := rfl
  free := rfl
  word := by decide
  budget := by decide
  settled := by
    intro pin hpin
    simp [Store.named, emptyTenant] at hpin
  held := by decide

/-- What a write of one frame does up to the budget, and what it does after it. -/
def admission (i : Nat) : List Event :=
  [.act i .load, .act i (.exchange false), .act i .measure, .act i .count, .act i .check]

def completion (i size : Nat) (root : Hash) : List Event :=
  [.act i (.opened none), .act i (.chunk size none), .act i .commit, .act i (.ingest root),
    .act i .publish, .act i .report]

def oneWrite : List Event :=
  [.put "docs" "a" 6] ++ admission 0 ++ completion 0 6 (Hash.ofNat 1) ++ [.sweep "docs"]

def overlappingWrites : List Event :=
  [.put "docs" "a" 6, .put "docs" "b" 6] ++ admission 0 ++ admission 1 ++
    completion 0 6 (Hash.ofNat 1) ++ completion 1 6 (Hash.ofNat 2) ++ [.sweep "docs"]

end Synch.Writes
