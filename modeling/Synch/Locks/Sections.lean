import Synch.Locks.Evolution

/-!
# What the sections do to a hold and to the watermarks

A node's lock operations interleave section by section.  Two things of an entry
decide what a fence lets through and what a handoff waits for: this node's own
claim and the watermarks.  The lemmas below say what each section does to these
two, so that nothing built on them opens a section again.
-/

namespace Synch.Locks

open Std (TreeMap)
open Synch.Support

variable {Origin : Type} [LinearOrder Origin]

def LockMessage.watermarks {Origin : Type} : LockMessage Origin → List (Watermark Origin)
  | .answer _ _ watermarks => watermarks
  | _ => []

/-- Everything a list of answers says. -/
def gather (answers : List (LockMessage Origin)) : Gathered Origin :=
  answers.foldl (fun gathered answer =>
      match answer with
      | .answer reports ended watermarks => gathered.add reports ended watermarks
      | _ => gathered)
    {}

/-- The watermarks of others that an acquirer waits for. -/
def Gathered.handoff (gathered : Gathered Origin) (self : Origin) : List (Watermark Origin) :=
  (valuesOf gathered.watermarks).filter fun mark => mark.origin != self

/-! ## Sections of ending operations -/

namespace Manager

variable (manager : Manager Origin)

variable (lock : LockName)

/-- This node's own claim on a lock. -/
def hold : Option (Own Origin) :=
  (manager.table.entry lock).own

/-- The watermarks recorded for a lock. -/
def marks : TreeMap Origin (UInt64 × Instant) :=
  (manager.table.entry lock).watermarks

/-- The section of a peer's end that found this node's own claim named. -/
def endOwn (id : ClaimId Origin) (reason : EndReason) (now : Instant) : Manager Origin :=
  ({ manager with
      table := manager.table.modify lock fun entry =>
        (entry.takeOwn id).endClaim id reason now } : Manager Origin).forgetHold lock id

/-- The section of a peer's end that found another claim named. -/
def endOther (id : ClaimId Origin)
    (reason : EndReason) (watermark : Option (Watermark Origin)) (now : Instant) :
    Manager Origin :=
  { manager with
    table := manager.table.modify lock fun entry =>
      (entry.endClaim id reason now).watermarkAll
        (watermark.filter fun mark => mark.origin == id.ticket.origin).toList now }

/-- Where nothing comes between its sections, a peer's end is one of the two. -/
theorem recordEnd_eq (manager : Manager Origin) (writers : List Origin) (lock : LockName)
    (id : ClaimId Origin) (reason : EndReason) (watermark : Option (Watermark Origin))
    (now : Instant) (hmay : mayEnd writers id reason = true) :
    (manager.recordEnd writers lock id reason watermark now).1 =
      if manager.owns lock id then manager.endOwn lock id reason now
      else manager.endOther lock id reason watermark now := by
  unfold recordEnd
  rw [hmay]
  simp only [Bool.not_true, Bool.false_eq_true, if_false]
  split <;> rfl

def breakVictims (holder : Option Origin) (gathered : Gathered Origin) : List (ClaimId Origin) :=
  let entry := manager.table.entry lock
  (((entry.noteObserved gathered).known.toList).filter fun known =>
    known.2.2 != .expired && known.1.ticket.origin != manager.origin &&
      holder.all (fun h => h == known.1.ticket.origin) &&
        !gathered.ended.contains known.1 && !entry.ended.contains known.1).map Prod.fst

/-- End other nodes' claims on a lock. -/
def breakOthers (holder : Option Origin)
    (gathered : Gathered Origin) (now : Instant) : Manager Origin :=
  { manager with
    table := manager.table.modify lock fun entry =>
      (manager.breakVictims lock holder gathered).foldl
        (fun acc id => acc.endClaim id .broken now) entry }

end Manager

/-- The instant from which a hold is past one of its deadlines. -/
def Own.limit {Origin : Type} (own : Own Origin) : Instant :=
  match own.clientDeadline with
  | none => own.deadline
  | some deadline => min own.deadline deadline

/-- A claim is another after a renewal: the same one, as held as before. -/
def Own.Renews {Origin : Type} (before after : Own Origin) : Prop :=
  after.claim.id = before.claim.id ∧ after.isHeld = before.isHeld

namespace Own

variable {Origin : Type}

theorem limit_le_deadline (own : Own Origin) : own.limit ≤ own.deadline := by
  unfold limit
  split
  · exact Nat.le_refl _
  · exact Nat.min_le_left _ _

theorem limit_le_client (own : Own Origin) {deadline : Instant}
    (h : own.clientDeadline = some deadline) : own.limit ≤ deadline := by
  rw [limit, h]
  exact Nat.min_le_right _ _

/-- A limit is where both deadlines allow it. -/
theorem le_limit {own : Own Origin} {instant : Instant} (hdeadline : instant ≤ own.deadline)
    (hclient : ∀ deadline, own.clientDeadline = some deadline → instant ≤ deadline) :
    instant ≤ own.limit := by
  unfold limit
  split
  · exact hdeadline
  · next deadline h => exact Nat.le_min.mpr ⟨hdeadline, hclient deadline h⟩

end Own

namespace Entry

variable (entry : Entry Origin)

theorem observe_own_and_watermarks (claim : Claim Origin) (renewal : Bool) (now : Instant) :
    (entry.observe claim renewal now).own = entry.own ∧
      (entry.observe claim renewal now).watermarks = entry.watermarks := by
  unfold observe
  split
  · exact ⟨rfl, rfl⟩
  · exact ⟨rfl, rfl⟩

theorem foldl_endClaim_own_and_watermarks (ids : List (ClaimId Origin)) (reason : EndReason)
    (now : Instant) (entry : Entry Origin) :
    (ids.foldl (fun acc id => acc.endClaim id reason now) entry).own = entry.own ∧
      (ids.foldl (fun acc id => acc.endClaim id reason now) entry).watermarks =
        entry.watermarks := by
  induction ids generalizing entry with
  | nil => exact ⟨rfl, rfl⟩
  | cons id ids ih => exact ih (entry.endClaim id reason now)

theorem endReported_own_and_watermarks (mine : ClaimId Origin)
    (ended : List (ClaimId Origin × EndReason)) (now : Instant) :
    (entry.endReported mine ended now).own = entry.own ∧
      (entry.endReported mine ended now).watermarks = entry.watermarks := by
  induction ended generalizing entry with
  | nil => exact ⟨rfl, rfl⟩
  | cons report ended ih =>
    have hrest := ih (if report.1 = mine then entry
      else entry.endClaim report.1 report.2 now)
    have hhead :
        (if report.1 = mine then entry else entry.endClaim report.1 report.2 now).own =
            entry.own ∧
          (if report.1 = mine then entry
            else entry.endClaim report.1 report.2 now).watermarks = entry.watermarks := by
      split
      · exact ⟨rfl, rfl⟩
      · exact ⟨rfl, rfl⟩
    exact ⟨hrest.1.trans hhead.1, hrest.2.trans hhead.2⟩

theorem absorb_own (mine : ClaimId Origin) (gathered : Gathered Origin) (now : Instant) :
    (entry.absorb mine gathered now).own = entry.own := by
  rw [absorb, watermarkAll_own]
  exact (endReported_own_and_watermarks entry mine _ now).1

/-- What a decision does to the own claim: nothing, drop the claim it decides, or
promote it. -/
theorem settle_own (claim : Claim Origin) (gathered : Gathered Origin) (deadline now : Instant) :
    (entry.settle claim gathered deadline now).1.watermarks = entry.watermarks ∧
      ((entry.settle claim gathered deadline now).2 ≠ .hold ∧
          ((entry.settle claim gathered deadline now).1.own =
              entry.own.filter (fun own => own.claim.id != claim.id) ∨
            entry.contends claim.id = true ∧
              (entry.settle claim gathered deadline now).1.own = none) ∨
        entry.contends claim.id = true ∧
          ∃ supersedes, (entry.settle claim gathered deadline now).1.own =
            (entry.promote supersedes deadline).own) := by
  unfold settle
  split
  · exact ⟨rfl, .inl ⟨nofun, .inl rfl⟩⟩
  · next hcontends =>
    have hcontends : entry.contends claim.id = true := by
      simp only [Bool.or_eq_true, Bool.not_eq_true', not_or] at hcontends
      simpa using hcontends.1
    split
    · next supersedes hdecide => exact ⟨rfl, .inr ⟨hcontends, supersedes, rfl⟩⟩
    · exact ⟨rfl, .inl ⟨nofun, .inr ⟨hcontends, rfl⟩⟩⟩

end Entry

namespace Table

theorem trimEnded_own_and_watermarks (table : Table Origin) (lock : LockName) :
    (table.trimEnded.entry lock).own = (table.entry lock).own ∧
      (table.trimEnded.entry lock).watermarks = (table.entry lock).watermarks := by
  refine trimEnded_invariant (fun t => (t.entry lock).own = (table.entry lock).own ∧
    (t.entry lock).watermarks = (table.entry lock).watermarks) (fun t ended h => ?_) ⟨rfl, rfl⟩
  rw [forgetEnded, entry_modify]
  split
  · next hlock =>
    rw [hlock]
    exact h
  · exact h

/-- A sweep keeps the own claims, and forgets watermarks but makes none. -/
theorem sweep_own_and_watermarks (table : Table Origin) (now : Instant) (lock : LockName) :
    ((table.sweep now).entry lock).own = (table.entry lock).own ∧
      ∀ (origin : Origin) slot,
        ((table.sweep now).entry lock).watermarks[origin]? = some slot →
          (table.entry lock).watermarks[origin]? = some slot := by
  rw [sweep]
  obtain ⟨hown, hmarks⟩ := trimEnded_own_and_watermarks
    { table with
      locks := (table.locks.map fun _ entry => entry.sweep now).filter
        fun _ entry => !entry.isEmpty } lock
  rw [hown, hmarks]
  simp only [entry, TreeMap.getD_eq_getD_getElem?, TreeMap.getElem?_filter', TreeMap.getElem?_map]
  cases table.locks[lock]? with
  | none => exact ⟨rfl, fun origin slot h => h⟩
  | some entry =>
    have hkeep : ∀ (origin : Origin) slot,
        (entry.sweep now).watermarks[origin]? = some slot →
          entry.watermarks[origin]? = some slot := by
      intro origin slot h
      simp only [Entry.sweep, TreeMap.getElem?_filter', Option.filter_eq_some_iff] at h
      exact h.1
    simp only [Option.map_some, Option.filter_some, Option.getD_some]
    split
    · exact ⟨rfl, hkeep⟩
    · next hempty =>
      have hempty : (entry.sweep now).isEmpty = true := by simpa using hempty
      simp only [Entry.isEmpty, Bool.and_eq_true, Option.isNone_iff_eq_none] at hempty
      refine ⟨hempty.2.symm, fun origin slot h => ?_⟩
      simp at h

end Table

/-- Every watermark of a map was there before or is one of a list. -/
def MarksFrom
    (before after : TreeMap Origin (UInt64 × Instant)) (added : List (Watermark Origin)) :
    Prop :=
  ∀ (origin : Origin) slot, after[origin]? = some slot →
    before[origin]? = some slot ∨ ⟨origin, slot.1⟩ ∈ added

theorem MarksFrom.refl (marks : TreeMap Origin (UInt64 × Instant))
    (added : List (Watermark Origin)) :
    MarksFrom marks marks added :=
  fun _ _ h => .inl h

theorem Entry.marksFrom_watermark (entry : Entry Origin) (mark : Watermark Origin) (now : Instant) :
    MarksFrom entry.watermarks (entry.watermark mark now).watermarks [mark] := by
  intro origin slot h
  simp only [watermark, TreeMap.getElem?_insert] at h
  split at h
  · next horigin =>
    have horigin : mark.origin = origin := by simpa using horigin
    subst horigin
    cases h
    split
    · exact .inr (by simp)
    · next hbelow =>
      -- The slot kept was there before: a missing one reads as zero.
      cases hslot : entry.watermarks[mark.origin]? with
      | none =>
        rw [TreeMap.getD_eq_getD_getElem?, hslot] at hbelow
        exact absurd (UInt64.le_iff_toNat_le.mpr (Nat.zero_le _)) hbelow
      | some slot =>
        rw [TreeMap.getD_eq_getD_getElem?, hslot]
        exact .inl rfl
  · exact .inl h

theorem Entry.marksFrom_watermarkAll
    (entry : Entry Origin) (marks : List (Watermark Origin)) (now : Instant) :
    MarksFrom entry.watermarks (entry.watermarkAll marks now).watermarks marks := by
  induction marks generalizing entry with
  | nil => exact MarksFrom.refl _ _
  | cons mark marks ih =>
    intro origin slot h
    rcases ih (entry.watermark mark now) origin slot h with h | h
    · rcases entry.marksFrom_watermark mark now origin slot h with h | h
      · exact .inl h
      · exact .inr (by simp [List.mem_singleton.mp h])
    · exact .inr (List.mem_cons_of_mem mark h)

theorem Entry.marksFrom_absorb (entry : Entry Origin) (mine : ClaimId Origin)
    (gathered : Gathered Origin) (now : Instant) :
    MarksFrom entry.watermarks (entry.absorb mine gathered now).watermarks
      (valuesOf gathered.watermarks) := by
  have hmarks := marksFrom_watermarkAll
    (entry.endReported mine gathered.ended.toList now) (valuesOf gathered.watermarks) now
  rw [(endReported_own_and_watermarks entry mine _ now).2] at hmarks
  exact hmarks

/-! ## The manager's sections -/

namespace Manager

/-- A section on `lock` leaves `own` as this node's claim there, records no watermark
but those given, and touches neither for any other lock. -/
structure Effect
    (manager next : Manager Origin) (lock : LockName) (own : Option (Own Origin))
    (added : List (Watermark Origin)) : Prop where
  origin : next.origin = manager.origin
  clock : manager.table.clock ≤ next.table.clock
  hold : next.hold lock = own
  hold_other : ∀ other, other ≠ lock → next.hold other = manager.hold other
  marks : MarksFrom (manager.marks lock) (next.marks lock) added
  marks_other : ∀ other, other ≠ lock → next.marks other = manager.marks other

variable {manager next : Manager Origin} {lock : LockName}

theorem Updates.effect {entry : Entry Origin} {added : List (Watermark Origin)}
    (h : manager.Updates next lock entry)
    (hmarks : MarksFrom (manager.marks lock) entry.watermarks added) :
    manager.Effect next lock entry.own added where
  origin := h.origin
  clock := h.clock
  hold := congrArg Entry.own h.entry
  hold_other other hne := congrArg Entry.own (h.entry_other other hne)
  marks := by
    have hnext : next.marks lock = entry.watermarks := congrArg Entry.watermarks h.entry
    rw [hnext]
    exact hmarks
  marks_other other hne := congrArg Entry.watermarks (h.entry_other other hne)

/-- What a section does to a hold that keeps the watermarks. -/
theorem Updates.effect_own {entry : Entry Origin} {own : Option (Own Origin)}
    (h : manager.Updates next lock entry) (hown : entry.own = own)
    (hmarks : entry.watermarks = (manager.table.entry lock).watermarks) :
    manager.Effect next lock own [] := by
  rw [← hown]
  apply h.effect
  rw [hmarks]
  exact MarksFrom.refl _ _

section Sections

variable (manager lock) (writers : List Origin) (id : ClaimId Origin) (claim : Claim Origin)
    (renewal : Bool) (reason : EndReason) (watermark : Option (Watermark Origin))
    (lost : Lost Origin) (gathered : Gathered Origin) (deadline now : Instant)

theorem record_effect [ToString Origin] :
    manager.Effect (manager.record writers lock claim renewal now).1 lock
      (manager.hold lock) [] := by
  obtain ⟨entry, hupdates, rfl | rfl⟩ := manager.record_updates lock writers claim renewal now
  · exact hupdates.effect_own rfl rfl
  · obtain ⟨hown, hmarks⟩ :=
      (manager.table.entry lock).observe_own_and_watermarks claim renewal now
    exact hupdates.effect_own hown hmarks

theorem endOther_effect :
    manager.Effect (manager.endOther lock id reason watermark now) lock
      (manager.hold lock)
      (watermark.filter fun mark => mark.origin == id.ticket.origin).toList := by
  have hupdates : manager.Updates (manager.endOther lock id reason watermark now) lock _ :=
    (Updates.refl manager lock).modify _
  have heffect := hupdates.effect (Entry.marksFrom_watermarkAll _ _ _)
  rw [Entry.watermarkAll_own] at heffect
  exact heffect

theorem endOwn_effect :
    manager.Effect (manager.endOwn lock id reason now) lock
      ((manager.hold lock).filter fun own => own.claim.id != id) [] := by
  obtain ⟨horigin, hclock, hentry, hother⟩ := (Updates.refl manager lock).modify
    fun entry => (entry.takeOwn id).endClaim id reason now
  have hupdates : manager.Updates (manager.endOwn lock id reason now) lock _ :=
    ⟨horigin, hclock, hentry, hother⟩
  exact hupdates.effect_own rfl rfl

theorem endRelease_effect :
    manager.Effect (manager.endRelease lock id watermark now) lock
      ((manager.hold lock).filter fun own => own.claim.id != id) watermark.toList := by
  have heffect := (manager.endRelease_updates lock id watermark now).effect
    (Entry.marksFrom_watermarkAll _ _ _)
  rw [Entry.watermarkAll_own] at heffect
  exact heffect

theorem lose_effect :
    manager.Effect (manager.lose lock id lost now) lock
      ((manager.hold lock).filter fun own => own.claim.id != id) [] := by
  obtain ⟨entry, hupdates, -, hown, hmarks⟩ := manager.lose_updates lock id lost now
  exact hupdates.effect_own hown hmarks

theorem dropAttempt_effect :
    manager.Effect (manager.dropAttempt lock id) lock
      ((manager.hold lock).filter fun own => own.claim.id != id) [] :=
  ((Updates.refl manager lock).modify _).effect_own rfl rfl

theorem breakOthers_effect (holder : Option Origin) :
    manager.Effect (manager.breakOthers lock holder gathered now) lock (manager.hold lock) [] := by
  obtain ⟨hown, hmarks⟩ := Entry.foldl_endClaim_own_and_watermarks
    (manager.breakVictims lock holder gathered) .broken now (manager.table.entry lock)
  exact ((Updates.refl manager lock).modify _).effect_own hown hmarks

/-- A fresh attempt makes its claim this node's own.  Its ticket is above the clock
unless the increment passes the greatest word. -/
theorem beginAttempt_effect (request : LockRequest) (nonce : UInt64) (wall : Int)
    (hroom : (max manager.table.clock (manager.table.entry request.lock).heard).toNat + 1 < 2 ^ 64) :
    manager.table.clock < (manager.beginAttempt request nonce now wall).2.id.ticket.lamport ∧
      (manager.beginAttempt request nonce now wall).2.id.ticket.lamport =
        (manager.beginAttempt request nonce now wall).1.table.clock ∧
      ∃ own, own.claim = (manager.beginAttempt request nonce now wall).2 ∧
        own.isHeld = false ∧
          manager.Effect (manager.beginAttempt request nonce now wall).1 request.lock
            (some own) [] := by
  have habove : manager.table.clock <
      max manager.table.clock (manager.table.entry request.lock).heard + 1 := by
    have hle : manager.table.clock ≤
        max manager.table.clock (manager.table.entry request.lock).heard :=
      le_max_left_word _ _
    rw [UInt64.lt_iff_toNat_lt, UInt64.toNat_add]
    have hone : (1 : UInt64).toNat = 1 := rfl
    have hle := UInt64.le_iff_toNat_le.mp hle
    rw [hone, Nat.mod_eq_of_lt hroom]
    omega
  let own : Own Origin :=
    { claim := (manager.beginAttempt request nonce now wall).2
      phase := .contending
      mode := request.mode
      deadline := now + request.ttl
      clientDeadline := if request.mode = .lease then some (now + request.ttl) else none
      lastRenew := some now
      renewing := false
      acquiredAt := wall }
  refine ⟨habove, rfl, own, rfl, rfl, ?_⟩
  have hclock : manager.table.clock ≤ ({ manager.table with
      clock := max manager.table.clock (manager.table.entry request.lock).heard + 1 } :
      Table Origin).clock := UInt64.le_of_lt habove
  have hupdates := (updates_of_entry_eq hclock (fun _ => rfl) request.lock).modify
    fun entry => { entry with own := some own }
  exact hupdates.effect_own rfl rfl

/-- What a decision leaves: the claim dropped, or promoted if it still contends. -/
theorem concludeAttempt_effect :
    ∃ own, manager.Effect
        (manager.concludeAttempt lock claim gathered deadline now).1 lock own
        (valuesOf gathered.watermarks) ∧
      (own = (manager.hold lock).filter (fun own => own.claim.id != claim.id) ∨
        ∃ mine, manager.hold lock = some mine ∧ mine.claim.id = claim.id ∧
          mine.isHeld = false ∧
            (own = none ∨ ∃ held, own = some held ∧ held.claim.id = claim.id)) := by
  have hown := (manager.table.entry lock).absorb_own claim.id gathered now
  have hmarks := (manager.table.entry lock).marksFrom_absorb claim.id gathered now
  obtain ⟨hkept, hsettle⟩ :=
    ((manager.table.entry lock).absorb claim.id gathered now).settle_own claim gathered deadline now
  have hmine : ((manager.table.entry lock).absorb claim.id gathered now).contends
      claim.id = true →
        ∃ mine, manager.hold lock = some mine ∧ mine.claim.id = claim.id ∧ mine.isHeld = false := by
    intro hcontends
    obtain ⟨mine, hmine, hid, hheld⟩ := Entry.contends_eq_true hcontends
    exact ⟨mine, hown.symm.trans hmine, hid, hheld⟩
  refine ⟨_, (manager.concludeAttempt_updates lock claim gathered deadline now).effect
    (hkept ▸ hmarks), ?_⟩
  rcases hsettle with ⟨-, hdrop | ⟨hcontends, hnone⟩⟩ | ⟨hcontends, supersedes, hpromote⟩
  · exact .inl (by rw [hdrop, hown, hold])
  · obtain ⟨mine, hhold, hid, hheld⟩ := hmine hcontends
    exact .inr ⟨mine, hhold, hid, hheld, .inl hnone⟩
  · obtain ⟨mine, hhold, hid, hheld⟩ := hmine hcontends
    refine .inr ⟨mine, hhold, hid, hheld, .inr ?_⟩
    rw [hpromote, Entry.promote, hown]
    unfold hold at hhold
    rw [hhold]
    exact ⟨_, rfl, hid⟩

end Sections

/-- A renewal starts with the claim as it is, marked. -/
theorem startRenewal_updates {now : Instant} {claim : Claim Origin}
    (h : manager.startRenewal lock now = some (next, claim)) :
    ∃ own own', manager.hold lock = some own ∧ own.claim = claim ∧ own.Renews own' ∧
      own'.limit = own.limit ∧
        manager.Updates next lock { manager.table.entry lock with own := some own' } := by
  unfold startRenewal at h
  split at h
  · cases h
  · next own hown =>
    split at h
    · cases h
      refine ⟨own, _, hown, rfl, ?_, ?_, (Updates.refl manager lock).modify _⟩
      · exact ⟨rfl, rfl⟩
      · rfl
    · cases h

theorem renew_updates {token : ClaimId Origin} {ttl : Option Duration}
    {payload : Option (List UInt8)} {now : Instant}
    (h : manager.renew lock token ttl payload now = some next) :
    ∃ own own', manager.hold lock = some own ∧ own.Renews own' ∧
      (own.limit ≤ now + ttl.getD (ofMillis own.claim.ttlMs) → own.limit ≤ own'.limit) ∧
        manager.Updates next lock { manager.table.entry lock with own := some own' } := by
  unfold renew at h
  split at h
  · cases h
  · next own hown =>
    split at h
    · cases h
      refine ⟨own, _, hown, ?_, ?_, (Updates.refl manager lock).modify _⟩
      · cases payload with
        | none => exact ⟨rfl, rfl⟩
        | some bytes => exact ⟨rfl, rfl⟩
      · intro hlimit
        have hclient : ∀ deadline,
            (if own.mode = .lease then some (now + ttl.getD (ofMillis own.claim.ttlMs))
              else own.clientDeadline) = some deadline → own.limit ≤ deadline := by
          intro deadline hdeadline
          split at hdeadline
          · exact (Option.some.inj hdeadline) ▸ hlimit
          · exact own.limit_le_client hdeadline
        cases payload with
        | none => exact Own.le_limit own.limit_le_deadline hclient
        | some bytes => exact Own.le_limit own.limit_le_deadline hclient
    · cases h

/-- The own claim after a renewal's answers. -/
theorem healOwn_renews (entry : Entry Origin) (own : Own Origin) (gathered : Gathered Origin)
    (sent : Instant) :
    (entry.healOwn own gathered sent).1.watermarks = entry.watermarks ∧
      ∃ after, (entry.healOwn own gathered sent).1.own = some after ∧ own.Renews after ∧
        (own.limit ≤ sent + ofMillis own.claim.ttlMs → own.limit ≤ after.limit) := by
  unfold Entry.healOwn
  split
  · refine ⟨rfl, _, rfl, ⟨rfl, ?_⟩, fun hlimit => ?_⟩
    · cases hphase : own.phase with
      | contending => simp [Entry.confirm, Own.isHeld, hphase]
      | held => simp [Entry.confirm, Own.isHeld, hphase]
      | unconfirmed =>
        simp only [Entry.confirm, Own.isHeld, hphase]
        decide
    · exact Own.le_limit hlimit fun deadline h => own.limit_le_client h
  · exact ⟨rfl, _, rfl, ⟨rfl, rfl⟩, fun _ => Nat.le_refl _⟩

variable (manager lock) in
/-- A renewal's answers keep the claim; only a lease that now ends sooner brings its
limit forward. -/
theorem finishRenewal_effect (claim : Claim Origin) (gathered : Gathered Origin)
    (sent now : Instant) :
    ∃ own, manager.Effect (manager.finishRenewal lock claim gathered sent now).1 lock own
        (valuesOf gathered.watermarks) ∧
      (manager.hold lock = none → own = none) ∧
        ∀ before, manager.hold lock = some before →
          ∃ after, own = some after ∧ before.Renews after ∧
            (before.limit ≤ sent + ofMillis before.claim.ttlMs → before.limit ≤ after.limit) := by
  have hsame : ∀ before, manager.hold lock = some before →
      ∃ after, manager.hold lock = some after ∧ before.Renews after ∧
        (before.limit ≤ sent + ofMillis before.claim.ttlMs → before.limit ≤ after.limit) :=
    fun before h => ⟨before, h, ⟨rfl, rfl⟩, fun _ => Nat.le_refl _⟩
  have hmarks := (manager.table.entry lock).marksFrom_watermarkAll
    (valuesOf gathered.watermarks) now
  obtain ⟨entry, hupdates, rfl | rfl | ⟨own, hhold, rfl⟩⟩ :=
    manager.finishRenewal_updates lock claim gathered sent now
  · exact ⟨_, hupdates.effect (MarksFrom.refl _ _), fun h => h, hsame⟩
  · refine ⟨manager.hold lock, ?_, fun h => h, hsame⟩
    have heffect := hupdates.effect hmarks
    rw [Entry.watermarkAll_own] at heffect
    exact heffect
  · obtain ⟨hkept, after, hafter, hrenews⟩ :=
      healOwn_renews ((manager.table.entry lock).watermarkAll
        (valuesOf gathered.watermarks) now) own gathered sent
    refine ⟨_, hupdates.effect (hkept ▸ hmarks), fun h => ?_, fun before h => ?_⟩
    · cases hhold.symm.trans h
    · obtain rfl := Option.some.inj (hhold.symm.trans h)
      exact ⟨after, hafter, hrenews⟩

end Manager

end Synch.Locks
