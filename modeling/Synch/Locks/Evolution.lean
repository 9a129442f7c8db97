import Synch.Locks.Clock

/-!
# How entries evolve

Apart from taking a claim and holding it, every section changes an entry in the
same limited way: it keeps or drops the own claim, forgets observed claims only
when it ends them, and remembers as ended only what it ends.
-/

namespace Synch.Locks

open Std (TreeMap)
open Synch.Support

variable {Origin : Type} [LinearOrder Origin]

namespace Entry

/-- The change of an entry under a section that ends at most the claims `gone`
and makes nobody an owner or a holder. -/
structure Evolves
    (gone : ClaimId Origin → Prop) (entry next : Entry Origin) : Prop where
  own : ∀ o', next.own = some o' → ∃ o, entry.own = some o ∧
    o'.claim.id = o.claim.id ∧ o'.isHeld = o.isHeld
  observed : ∀ (id : ClaimId Origin) o', next.observed[id]? = some o' →
    entry.observed[id]? = some o' ∨ o'.claim.id = id ∧ o'.expired = false
  seen : ∀ (id : ClaimId Origin) o, entry.observed[id]? = some o →
    gone id ∨ ∃ o', next.observed[id]? = some o'
  ended : ∀ (id : ClaimId Origin), next.ended.contains id = true →
    entry.ended.contains id = true ∨ gone id

theorem Evolves.refl (gone : ClaimId Origin → Prop) (entry : Entry Origin) :
    entry.Evolves gone entry where
  own o' h := ⟨o', h, rfl, rfl⟩
  observed _ _ h := .inl h
  seen _ o h := .inr ⟨o, h⟩
  ended _ h := .inl h

variable {gone : ClaimId Origin → Prop} {entry : Entry Origin} {o : Own Origin}
    {id : ClaimId Origin} {claim : Claim Origin} {gathered : Gathered Origin}
    {deadline now : Instant}

theorem Evolves.trans {middle next : Entry Origin} (h : entry.Evolves gone middle)
    (h' : middle.Evolves gone next) :
    entry.Evolves gone next where
  own := by
    intro o'' hown
    obtain ⟨o', ho', hid', hheld'⟩ := h'.own o'' hown
    obtain ⟨o, ho, hid, hheld⟩ := h.own o' ho'
    exact ⟨o, ho, hid'.trans hid, hheld'.trans hheld⟩
  observed := by
    intro id o'' hobserved
    rcases h'.observed id o'' hobserved with hmiddle | hfresh
    · exact h.observed id o'' hmiddle
    · exact .inr hfresh
  seen := by
    intro id o hobserved
    rcases h.seen id o hobserved with hgone | ⟨o', ho'⟩
    · exact .inl hgone
    · exact h'.seen id o' ho'
  ended := by
    intro id hended
    rcases h'.ended id hended with hmiddle | hgone
    · exact h.ended id hmiddle
    · exact .inr hgone

theorem Evolves.mono {gone' : ClaimId Origin → Prop} {next : Entry Origin}
    (h : entry.Evolves gone next) (hle : ∀ id, gone id → gone' id) :
    entry.Evolves gone' next where
  own := h.own
  observed := h.observed
  seen id o ho := (h.seen id o ho).imp_left (hle id)
  ended id hid := (h.ended id hid).imp_right (hle id)

/-- A change that touches no claim of another node and gives this node no further one. -/
theorem evolves_of_own {next : Entry Origin}
    (hown : ∀ o', next.own = some o' → ∃ o, entry.own = some o ∧
      o'.claim.id = o.claim.id ∧ o'.isHeld = o.isHeld)
    (hobserved : next.observed = entry.observed) (hended : next.ended = entry.ended) :
    entry.Evolves gone next where
  own := hown
  observed _ _ h := .inl (hobserved ▸ h)
  seen _ o h := .inr ⟨o, hobserved ▸ h⟩
  ended _ h := .inl (hended ▸ h)

/-- Replacing the own claim by one of the same id and standing. -/
theorem evolves_of_same_own {o' : Own Origin} (hown : entry.own = some o)
    (hid : o'.claim.id = o.claim.id) (hheld : o'.isHeld = o.isHeld) :
    entry.Evolves gone { entry with own := some o' } := by
  refine evolves_of_own (fun o'' h => ?_) rfl rfl
  obtain rfl : o' = o'' := Option.some.inj h
  exact ⟨o, hown, hid, hheld⟩

theorem evolves_watermarkAll (gone : ClaimId Origin → Prop) (entry : Entry Origin)
    (marks : List (Watermark Origin)) (now : Instant) :
    entry.Evolves gone (entry.watermarkAll marks now) := by
  induction marks generalizing entry with
  | nil => exact Evolves.refl gone entry
  | cons mark marks ih =>
    have hmark : entry.Evolves gone (entry.watermark mark now) :=
      evolves_of_own (fun o' h => ⟨o', h, rfl, rfl⟩) rfl rfl
    exact hmark.trans (ih (entry.watermark mark now))

@[simp]
theorem watermarkAll_own (entry : Entry Origin) (marks : List (Watermark Origin)) (now : Instant) :
    (entry.watermarkAll marks now).own = entry.own := by
  induction marks generalizing entry with
  | nil => rfl
  | cons mark marks ih => exact ih (entry.watermark mark now)

theorem evolves_takeOwn (gone : ClaimId Origin → Prop) (entry : Entry Origin)
    (id : ClaimId Origin) :
    entry.Evolves gone (entry.takeOwn id) := by
  refine evolves_of_own (fun o' h => ?_) rfl rfl
  obtain ⟨hown, -⟩ := Option.filter_eq_some_iff.mp h
  exact ⟨o', hown, rfl, rfl⟩

theorem takeOwn_own_ne (h : (entry.takeOwn id).own = some o) : o.claim.id ≠ id := by
  obtain ⟨-, hne⟩ := Option.filter_eq_some_iff.mp h
  simpa using hne

theorem evolves_endClaim (entry : Entry Origin) (id : ClaimId Origin) (reason : EndReason)
    (now : Instant) : entry.Evolves (fun x => x = id) (entry.endClaim id reason now) where
  own o' h := ⟨o', h, rfl, rfl⟩
  observed := by
    intro other o' h
    have hold : (entry.observed.erase id)[other]? = some o' := h
    rw [TreeMap.getElem?_erase] at hold
    split at hold
    · cases hold
    · exact .inl hold
  seen := by
    intro other o h
    by_cases hid : id = other
    · exact .inl hid.symm
    · refine .inr ⟨o, ?_⟩
      simp [endClaim, TreeMap.getElem?_erase, hid, h]
  ended := by
    intro other h
    have hinsert : (entry.ended.insert id (reason, now)).contains other = true := h
    rw [TreeMap.contains_insert, Bool.or_eq_true] at hinsert
    rcases hinsert with hid | hold
    · have heq : id = other := by simpa using hid
      exact .inr heq.symm
    · exact .inl hold

/-- Ending a claim that this node may own. -/
theorem evolves_dropClaim (entry : Entry Origin) (id : ClaimId Origin) (reason : EndReason)
    (now : Instant) :
    entry.Evolves (fun x => x = id) ((entry.takeOwn id).endClaim id reason now) :=
  (evolves_takeOwn _ entry id).trans (evolves_endClaim _ id reason now)

theorem evolves_endReported (entry : Entry Origin) (mine : ClaimId Origin)
    (ended : List (ClaimId Origin × EndReason)) (now : Instant)
    (hgone : ∀ report ∈ ended, gone report.1) :
    entry.Evolves gone (entry.endReported mine ended now) := by
  induction ended generalizing entry with
  | nil => exact Evolves.refl gone entry
  | cons report ended ih =>
    have hrest : ∀ report ∈ ended, gone report.1 := fun other hother =>
      hgone other (List.mem_cons_of_mem _ hother)
    by_cases hmine : report.1 = mine
    · have hskip : entry.endReported mine (report :: ended) now =
          entry.endReported mine ended now := by
        simp [endReported, hmine]
      rw [hskip]
      exact ih entry hrest
    · have hend : entry.endReported mine (report :: ended) now =
          (entry.endClaim report.1 report.2 now).endReported mine ended now := by
        simp [endReported, hmine]
      rw [hend]
      have hreport := (evolves_endClaim entry report.1 report.2 now).mono fun _ hid =>
        hid ▸ hgone report (by simp)
      exact hreport.trans (ih _ hrest)

/-- Folding the answers in ends at most what they report ended. -/
theorem evolves_absorb (entry : Entry Origin) (mine : ClaimId Origin) (gathered : Gathered Origin)
    (now : Instant) :
    entry.Evolves (fun id => gathered.ended.contains id = true)
      (entry.absorb mine gathered now) := by
  refine (evolves_endReported entry mine gathered.ended.toList now ?_).trans
    (evolves_watermarkAll _ _ _ now)
  rintro ⟨id, reason⟩ hmem
  exact contains_eq_true_iff.mpr ⟨reason, TreeMap.mem_toList_iff_getElem?_eq_some.mp hmem⟩

theorem evolves_observe (gone : ClaimId Origin → Prop) (entry : Entry Origin) (claim : Claim Origin)
    (renewal : Bool) (now : Instant) : entry.Evolves gone (entry.observe claim renewal now) := by
  unfold observe
  split
  · exact Evolves.refl gone entry
  · refine
      { own := fun o' h => ⟨o', h, rfl, rfl⟩
        observed := ?_
        seen := ?_
        ended := fun _ h => .inl h }
    · intro id o' h
      rw [TreeMap.getElem?_insert] at h
      split at h
      · rename_i hid
        cases h
        exact .inr ⟨by simpa using hid, rfl⟩
      · exact .inl h
    · intro id o h
      refine .inr ?_
      rw [TreeMap.getElem?_insert]
      split
      · exact ⟨_, rfl⟩
      · exact ⟨o, h⟩

/-- A claim not known to have ended is observed once it is recorded. -/
theorem observe_observed_self (hlive : entry.ended.contains claim.id = false) (renewal : Bool)
    (now : Instant) : ∃ o, (entry.observe claim renewal now).observed[claim.id]? = some o := by
  simp [observe, hlive]

theorem evolves_settle (hnot : (entry.settle claim gathered deadline now).2 ≠ .hold) :
    entry.Evolves (fun id => id = claim.id) (entry.settle claim gathered deadline now).1 := by
  unfold settle at hnot ⊢
  split at hnot
  · rename_i hbroken
    rw [if_pos hbroken]
    exact evolves_takeOwn _ entry claim.id
  · rename_i hbroken
    rw [if_neg hbroken]
    split at hnot
    · exact absurd rfl hnot
    · have hdrop : entry.Evolves (fun id => id = claim.id) { entry with own := none } :=
        evolves_of_own (fun _ h => nomatch h) rfl rfl
      exact hdrop.trans (evolves_endClaim _ claim.id .withdrawn now)

/-- A claim that is not held after the decision is not owned any more. -/
theorem settle_own_ne (hnot : (entry.settle claim gathered deadline now).2 ≠ .hold)
    (hown : (entry.settle claim gathered deadline now).1.own = some o) : o.claim.id ≠ claim.id := by
  unfold settle at hnot hown
  split at hnot
  · rename_i hbroken
    rw [if_pos hbroken] at hown
    exact takeOwn_own_ne hown
  · rename_i hbroken
    rw [if_neg hbroken] at hown
    split at hnot
    · exact absurd rfl hnot
    · rename_i winner reclaim hyield
      rw [hyield] at hown
      cases hown

/-- What a claimant that holds has found. -/
theorem settle_hold (hhold : (entry.settle claim gathered deadline now).2 = .hold) :
    entry.contends claim.id = true ∧
      ∃ supersedes, decideClaim claim.id (entry.noteObserved gathered).known
          entry.endReasons = .hold supersedes ∧
        (entry.settle claim gathered deadline now).1 = entry.promote supersedes deadline := by
  unfold settle at hhold ⊢
  split at hhold
  · cases hhold
  · rename_i hbroken
    have hcontends : entry.contends claim.id = true := by
      by_contra hnot
      simp [hnot] at hbroken
    refine ⟨hcontends, ?_⟩
    rw [if_neg hbroken]
    split at hhold
    · rename_i supersedes hverdict
      exact ⟨supersedes, hverdict, rfl⟩
    · cases hhold

/-- A claimant that holds was told of no held claim it does not know ended, and
observes no lesser one. -/
theorem no_rival_of_hold {mine : ClaimId Origin} {supersedes : List (ClaimId Origin)}
    (hhold : decideClaim mine (entry.noteObserved gathered).known
      entry.endReasons = .hold supersedes) (hne : id ≠ mine)
    (hlive : entry.ended.contains id = false) :
    ¬gathered.Knows id .held ∧
      ∀ o, entry.observed[id]? = some o → o.claim.id = id → o.expired = false → ¬id < mine := by
  have hrival : isRival mine entry.endReasons id = true := by
    simp [isRival, endReasons, hlive, hne]
  constructor
  · intro htold
    have hknows : (entry.noteObserved gathered).Knows id .held := htold.foldl_note _
    obtain ⟨claim, state, hknown, hle⟩ := hknows
    have hclear := blocks_eq_false_of_hold hhold hknown hrival
    rw [blocks_of_held_le hle] at hclear
    cases hclear
  · rintro o ho rfl hexpired hlt
    have hmem : o ∈ valuesOf entry.observed := mem_valuesOf_iff.mpr ⟨_, ho⟩
    have hknows : (entry.noteObserved gathered).Knows o.claim.id o.state :=
      Gathered.knows_foldl_note_of_mem hmem gathered
    obtain ⟨claim, state, hknown, hle⟩ := hknows
    have hstate : .live ≤ o.state := by
      unfold Observed.state
      rw [hexpired]
      cases o.held <;> decide
    have hclear := blocks_eq_false_of_hold hhold hknown hrival
    rw [blocks_of_live_le (hstate.trans hle) hlt] at hclear
    cases hclear

theorem contends_eq_true (h : entry.contends id = true) :
    ∃ own, entry.own = some own ∧ own.claim.id = id ∧ own.isHeld = false := by
  cases hown : entry.own with
  | none => simp [contends, hown] at h
  | some own =>
    refine ⟨own, rfl, ?_⟩
    simpa [contends, hown] using h

theorem evolves_healOwn (gone : ClaimId Origin → Prop) {own : Own Origin}
    (hown : entry.own = some own) (gathered : Gathered Origin) (sent : Instant) :
    entry.Evolves gone (entry.healOwn own gathered sent).1 := by
  unfold healOwn
  split
  · refine evolves_of_same_own hown rfl ?_
    cases hphase : own.phase with
    | contending => simp [confirm, Own.isHeld, hphase]
    | held => simp [confirm, Own.isHeld, hphase]
    | unconfirmed =>
      simp only [confirm, Own.isHeld, hphase, if_true]
      decide
  · exact evolves_of_same_own hown rfl rfl

/-- A sweep before any observed lease ran out only forgets ended claims. -/
theorem evolves_sweep (gone : ClaimId Origin → Prop)
    (hlast : ∀ (id : ClaimId Origin) o, entry.observed[id]? = some o →
      now < o.deadline ∧ o.expired = false) :
    entry.Evolves gone (entry.sweep now) where
  own o' h := ⟨o', h, rfl, rfl⟩
  observed := by
    intro id o' h
    simp only [sweep, TreeMap.getElem?_filter', TreeMap.getElem?_map,
      Option.filter_eq_some_iff, Option.map_eq_some_iff] at h
    obtain ⟨⟨o, ho, rfl⟩, -⟩ := h
    obtain ⟨hlt, hexpired⟩ := hlast id o ho
    have hsame : ({ o with expired := o.expired || decide (o.deadline ≤ now) } :
        Observed Origin) = o := by
      have hnot : ¬o.deadline ≤ now := Nat.not_le.mpr hlt
      simp [hnot]
    rw [hsame]
    exact .inl ho
  seen := by
    intro id o ho
    obtain ⟨hlt, hexpired⟩ := hlast id o ho
    have hnot : ¬o.deadline ≤ now := Nat.not_le.mpr hlt
    refine .inr ⟨o, ?_⟩
    simp only [sweep, TreeMap.getElem?_filter', TreeMap.getElem?_map, ho, hexpired,
      hnot, Option.map_some, Option.filter_some, decide_false, Bool.or_false,
      Bool.not_false, Bool.true_or, if_true]
    exact congrArg (fun expired => some (Observed.mk _ _ _ expired)) hexpired.symm
  ended := by
    intro id h
    refine .inl ?_
    exact TreeMap.contains_of_contains_filter h

end Entry

namespace Table

theorem evolves_trimEnded (gone : ClaimId Origin → Prop) (table : Table Origin) (lock : LockName) :
    (table.entry lock).Evolves gone (table.trimEnded.entry lock) := by
  have hforget : ∀ (t : Table Origin) ended,
      (t.entry lock).Evolves gone ((t.forgetEnded ended).entry lock) := by
    intro t ended
    unfold forgetEnded
    rw [entry_modify]
    split
    · rename_i hlock
      rw [hlock]
      refine
        { own := fun o' h => ⟨o', h, rfl, rfl⟩
          observed := fun _ _ h => .inl h
          seen := fun _ o h => .inr ⟨o, h⟩
          ended := ?_ }
      intro id h
      refine .inl ?_
      simp only [TreeMap.contains_erase, Bool.and_eq_true] at h
      exact h.2
    · exact Entry.Evolves.refl _ _
  exact trimEnded_invariant (fun t => (table.entry lock).Evolves gone (t.entry lock))
    (fun t ended h => h.trans (hforget t ended)) (Entry.Evolves.refl _ _)

/-- The sweep of a whole table, before any observed lease ran out. -/
theorem evolves_sweep (gone : ClaimId Origin → Prop) {table : Table Origin} {now : Instant}
    (lock : LockName)
    (hlast : ∀ (id : ClaimId Origin) o, (table.entry lock).observed[id]? = some o →
      now < o.deadline ∧ o.expired = false) :
    (table.entry lock).Evolves gone ((table.sweep now).entry lock) := by
  refine Entry.Evolves.trans ?_ (evolves_trimEnded gone _ lock)
  have hsweep := Entry.evolves_sweep gone hlast
  unfold entry at hsweep ⊢
  rw [TreeMap.getD_eq_getD_getElem?, TreeMap.getD_eq_getD_getElem?] at *
  rw [TreeMap.getElem?_filter', TreeMap.getElem?_map]
  cases hentry : table.locks[lock]? with
  | none => exact Entry.Evolves.refl _ _
  | some entry =>
    rw [hentry] at hsweep
    simp only [Option.map_some, Option.filter_some, Option.getD_some] at hsweep ⊢
    split
    · exact hsweep
    · rename_i hempty
      have hnone : (entry.sweep now).isEmpty = true := by simpa using hempty
      simp only [Entry.isEmpty, Bool.and_eq_true, Option.isNone_iff_eq_none] at hnone
      obtain ⟨⟨⟨hobserved, -⟩, -⟩, -⟩ := hnone
      refine
        { own := fun _ h => nomatch h
          observed := ?_
          seen := ?_
          ended := ?_ }
      · intro id o' h
        simp at h
      · intro id o ho
        rcases hsweep.seen id o ho with hgone | ⟨o', ho'⟩
        · exact .inl hgone
        · have habsent := TreeMap.getElem?_of_isEmpty (a := id) hobserved
          rw [habsent] at ho'
          cases ho'
      · intro id h
        simp at h

end Table

/-! ## Entries under the manager's sections -/

namespace Manager

/-- A section on `lock` leaves `entry` there and the other entries as they were. -/
structure Updates
    (manager next : Manager Origin) (lock : LockName) (entry : Entry Origin) : Prop where
  origin : next.origin = manager.origin
  clock : manager.table.clock ≤ next.table.clock
  entry : next.table.entry lock = entry
  entry_other : ∀ other, other ≠ lock → next.table.entry other = manager.table.entry other

variable {manager next : Manager Origin} {lock : LockName} {entry : Entry Origin}
    {now : Instant} {own : Own Origin} {claim : Claim Origin}

theorem Updates.refl (manager : Manager Origin) (lock : LockName) :
    manager.Updates manager lock (manager.table.entry lock) :=
  ⟨rfl, UInt64.le_refl _, rfl, fun _ _ => rfl⟩

/-- A section that only raises the clock. -/
theorem updates_of_entry_eq {table : Table Origin} (hclock : manager.table.clock ≤ table.clock)
    (hentry : ∀ other, table.entry other = manager.table.entry other) (lock : LockName) :
    manager.Updates { manager with table := table } lock (manager.table.entry lock) :=
  ⟨rfl, hclock, hentry lock, fun other _ => hentry other⟩

section

variable (h : manager.Updates next lock entry)
include h

theorem Updates.modify (f : Entry Origin → Entry Origin) :
    manager.Updates { next with table := next.table.modify lock f } lock (f entry) where
  origin := h.origin
  clock := h.clock
  entry := by rw [Table.entry_modify_self, h.entry]
  entry_other other hne := by
    rw [Table.entry_modify_of_ne _ hne.symm, h.entry_other other hne]

theorem Updates.evolves {gone : ClaimId Origin → Prop}
    (hevolves : (manager.table.entry lock).Evolves gone entry) (other : LockName) :
    (manager.table.entry other).Evolves (fun id => other = lock ∧ gone id)
      (next.table.entry other) := by
  by_cases hlock : other = lock
  · subst hlock
    rw [h.entry]
    exact hevolves.mono fun id hid => ⟨rfl, hid⟩
  · rw [h.entry_other other hlock]
    exact Entry.Evolves.refl _ _

theorem Updates.evolves_all {gone : ClaimId Origin → Prop}
    (hevolves : (manager.table.entry lock).Evolves gone entry) (other : LockName) :
    (manager.table.entry other).Evolves gone (next.table.entry other) :=
  (h.evolves hevolves other).mono fun _ h => h.2

end

section Sections

variable (manager lock) (writers : List Origin) (id : ClaimId Origin) (reason : EndReason)
    (watermark : Option (Watermark Origin)) (lost : Lost Origin) (claim : Claim Origin)
    (renewal : Bool) (gathered : Gathered Origin) (deadline sent now : Instant)

theorem record_updates [ToString Origin] :
    ∃ entry, manager.Updates (manager.record writers lock claim renewal now).1 lock entry ∧
      (entry = manager.table.entry lock ∨
        entry = (manager.table.entry lock).observe claim renewal now) := by
  have hclock : manager.table.clock ≤ (manager.table.hear claim.id.ticket.lamport).clock :=
    le_max_left_word _ _
  have hheard := updates_of_entry_eq hclock (fun _ => rfl) lock
  unfold record
  split
  · exact ⟨_, Updates.refl manager lock, .inl rfl⟩
  · split
    · unfold recordRival
      dsimp only
      split
      · exact ⟨_, hheard, .inl rfl⟩
      · exact ⟨_, hheard.modify _, .inr rfl⟩
    · exact ⟨_, Updates.refl manager lock, .inl rfl⟩

theorem recordEnd_updates :
    ∃ entry, manager.Updates (manager.recordEnd writers lock id reason watermark now).1 lock
        entry ∧
      (manager.table.entry lock).Evolves (fun x => x = id) entry := by
  unfold recordEnd
  split
  · exact ⟨_, Updates.refl manager lock, Entry.Evolves.refl _ _⟩
  · split
    · obtain ⟨horigin, hclock, hentry, hother⟩ := (Updates.refl manager lock).modify
        fun entry => (entry.takeOwn id).endClaim id reason now
      exact ⟨_, ⟨horigin, hclock, hentry, hother⟩, Entry.evolves_dropClaim _ id reason now⟩
    · exact ⟨_, (Updates.refl manager lock).modify _,
        (Entry.evolves_endClaim _ id reason now).trans (Entry.evolves_watermarkAll _ _ _ now)⟩

theorem endRelease_updates :
    manager.Updates (manager.endRelease lock id watermark now) lock
      ((((manager.table.entry lock).takeOwn id).endClaim id .released now).watermarkAll
        watermark.toList now) :=
  (Updates.refl manager lock).modify _

/-- A lost claim is dropped, where it still is this node's own. -/
theorem lose_updates :
    ∃ entry, manager.Updates (manager.lose lock id lost now) lock entry ∧
      (manager.table.entry lock).Evolves (fun x => x = id) entry ∧
        entry.own = ((manager.table.entry lock).takeOwn id).own ∧
          entry.watermarks = (manager.table.entry lock).watermarks := by
  unfold lose
  split
  · exact ⟨_, (Updates.refl manager lock).modify _,
      Entry.evolves_dropClaim _ id (lossReason lost) now, rfl, rfl⟩
  · next howns =>
    refine ⟨_, Updates.refl manager lock, Entry.Evolves.refl _ _, ?_, rfl⟩
    -- The claim is not this node's own, so dropping it drops nothing.
    unfold owns at howns
    unfold Entry.takeOwn
    cases hown : (manager.table.entry lock).own with
    | none => rfl
    | some own =>
      rw [hown] at howns
      have hne : (own.claim.id != id) = true := by simpa using howns
      simp only [Option.filter_some, hne, if_true]

/-- A renewal's answers leave the entry as it was, mark it, or mark and heal it. -/
theorem finishRenewal_updates :
    ∃ entry, manager.Updates (manager.finishRenewal lock claim gathered sent now).1 lock entry ∧
      (entry = manager.table.entry lock ∨
        entry = (manager.table.entry lock).watermarkAll (valuesOf gathered.watermarks) now ∨
          ∃ own, (manager.table.entry lock).own = some own ∧
            entry = (((manager.table.entry lock).watermarkAll (valuesOf gathered.watermarks)
              now).healOwn own gathered sent).1) := by
  have hheard := updates_of_entry_eq (manager.table.le_clock_hearAll gathered.tickets)
    (fun _ => Table.entry_hearAll _ _ _) lock
  unfold finishRenewal
  simp only [Table.entry_hearAll]
  split
  · exact ⟨_, hheard, .inl rfl⟩
  · split
    · exact ⟨_, hheard.modify _, .inr (.inl rfl)⟩
    · rename_i own hown
      rw [Entry.watermarkAll_own] at hown
      split
      · exact ⟨_, hheard.modify _, .inr (.inr ⟨own, hown, rfl⟩)⟩
      · exact ⟨_, hheard.modify _, .inr (.inl rfl)⟩

theorem finishRenewal_evolves (gone : ClaimId Origin → Prop) (other : LockName) :
    (manager.table.entry other).Evolves gone
      ((manager.finishRenewal lock claim gathered sent now).1.table.entry other) := by
  obtain ⟨entry, hupdates, hentry⟩ :=
    manager.finishRenewal_updates lock claim gathered sent now
  refine hupdates.evolves_all ?_ other
  have hmarked := Entry.evolves_watermarkAll gone (manager.table.entry lock)
    (valuesOf gathered.watermarks) now
  rcases hentry with rfl | rfl | ⟨own, hown, rfl⟩
  · exact Entry.Evolves.refl _ _
  · exact hmarked
  · exact hmarked.trans (Entry.evolves_healOwn gone (by rw [Entry.watermarkAll_own, hown])
      gathered sent)

theorem concludeAttempt_updates :
    manager.Updates (manager.concludeAttempt lock claim gathered deadline now).1 lock
      (((manager.table.entry lock).absorb claim.id gathered now).settle claim gathered deadline
        now).1 := by
  have hheard := updates_of_entry_eq (manager.table.le_clock_hearAll gathered.tickets)
    (fun _ => Table.entry_hearAll _ _ _) lock
  have hmodify := hheard.modify fun entry =>
    ((entry.absorb claim.id gathered now).settle claim gathered deadline now).1
  simpa [concludeAttempt, Table.modify] using hmodify

end Sections

/-- Beginning an attempt only puts a contending claim of this node in place. -/
theorem beginAttempt_entry (manager : Manager Origin) (request : LockRequest) (nonce : UInt64)
    (now : Instant) (wall : Int) :
    ∃ own : Own Origin,
      own.claim = (manager.beginAttempt request nonce now wall).2 ∧
      own.isHeld = false ∧
      ∀ other, (manager.beginAttempt request nonce now wall).1.table.entry other =
        if request.lock = other then
          { manager.table.entry request.lock with own := some own }
        else manager.table.entry other :=
  ⟨_, rfl, rfl, fun other => Table.entry_modify _ _ other _⟩

/-- An exchange that does not hold ends at most its own claim and what the
answers report ended. -/
theorem concludeAttempt_evolves {gathered : Gathered Origin} {deadline : Instant}
    (hnot : (manager.concludeAttempt lock claim gathered deadline now).2 ≠ .hold)
    (other : LockName) :
    (manager.table.entry other).Evolves
      (fun id => other = lock ∧ (gathered.ended.contains id = true ∨ id = claim.id))
      ((manager.concludeAttempt lock claim gathered deadline now).1.table.entry other) := by
  have hsettle : (((manager.table.entry lock).absorb claim.id gathered now).settle
      claim gathered deadline now).2 ≠ .hold := by
    simpa [concludeAttempt] using hnot
  have habsorb := Entry.evolves_absorb (manager.table.entry lock) claim.id gathered now
  exact (manager.concludeAttempt_updates lock claim gathered deadline now).evolves
    ((habsorb.mono fun id hid => .inl hid).trans
      ((Entry.evolves_settle hsettle).mono fun id hid => .inr hid)) other

theorem concludeAttempt_own_ne {gathered : Gathered Origin} {deadline : Instant}
    (hnot : (manager.concludeAttempt lock claim gathered deadline now).2 ≠ .hold)
    (hown : ((manager.concludeAttempt lock claim gathered deadline
      now).1.table.entry lock).own = some own) : own.claim.id ≠ claim.id := by
  rw [(manager.concludeAttempt_updates lock claim gathered deadline now).entry] at hown
  refine Entry.settle_own_ne ?_ hown
  simpa [concludeAttempt] using hnot

/-! ## What an answer says -/

/-- The answer to a claim reads the entry it left behind, and a peer that answers another
origin's claim has recorded it. -/
theorem record_answer [ToString Origin] {writers : List Origin} {renewal : Bool}
    {reports : List (Report Origin)} {ended : List (ClaimId Origin × EndReason)}
    {watermarks : List (Watermark Origin)} (h : manager.record writers lock claim renewal now =
      (next, .answer reports ended watermarks)) :
    reports = (next.table.entry lock).reports now ∧
      ended = (next.table.entry lock).endedReports ∧
        (claim.id.ticket.origin ≠ manager.origin →
          next.table.entry lock = (manager.table.entry lock).observe claim renewal now) := by
  unfold record at h
  split at h
  · rename_i hmine
    cases h
    exact ⟨rfl, rfl, fun hother => absurd hmine hother⟩
  · split at h
    · unfold recordRival at h
      dsimp only at h
      split at h
      · cases h
      · cases h
        exact ⟨rfl, rfl, fun _ => Table.entry_modify_self _ _ _⟩
    · cases h

end Manager

namespace Entry

theorem held_mem_reports {entry : Entry Origin} {own : Own Origin} (hown : entry.own = some own)
    (hheld : own.isHeld = true) (now : Instant) :
    ∃ report ∈ entry.reports now, report.claim.id = own.claim.id ∧ report.state = .held := by
  refine ⟨ownReport own now, ?_, rfl, ?_⟩
  · simp [reports, hown]
  · simp [ownReport, hheld]

theorem ended_of_mem_endedReports {entry : Entry Origin} {report : ClaimId Origin × EndReason}
    (h : report ∈ entry.endedReports) : entry.ended.contains report.1 = true := by
  obtain ⟨⟨id, reason, at_⟩, hmem, rfl⟩ := List.mem_map.mp h
  have hsorted := List.mem_of_mem_take hmem
  have hlist : (id, reason, at_) ∈ entry.ended.toList :=
    (List.mem_insertionSort _).mp hsorted
  exact contains_eq_true_iff.mpr ⟨_, TreeMap.mem_toList_iff_getElem?_eq_some.mp hlist⟩

end Entry

namespace Gathered

theorem foldl_mark_known (marks : List (Watermark Origin)) (gathered : Gathered Origin) :
    (marks.foldl mark gathered).known = gathered.known ∧
      (marks.foldl mark gathered).ended = gathered.ended := by
  induction marks generalizing gathered with
  | nil => exact ⟨rfl, rfl⟩
  | cons head marks ih => exact ih (gathered.mark head)

theorem foldl_noteEnd_known (ended : List (ClaimId Origin × EndReason))
    (gathered : Gathered Origin) :
    (ended.foldl noteEnd gathered).known = gathered.known := by
  induction ended generalizing gathered with
  | nil => rfl
  | cons head ended ih => exact ih (gathered.noteEnd head)

variable {gathered : Gathered Origin} {id : ClaimId Origin}

theorem foldl_noteEnd_ended {ended : List (ClaimId Origin × EndReason)}
    (h : (ended.foldl noteEnd gathered).ended.contains id = true) :
    gathered.ended.contains id = true ∨ ∃ report ∈ ended, report.1 = id := by
  induction ended generalizing gathered with
  | nil => exact .inl h
  | cons head ended ih =>
    rcases ih h with hbefore | ⟨report, hreport, hid⟩
    · have hinsert : (gathered.ended.insert head.1 head.2).contains id = true :=
        hbefore
      rw [TreeMap.contains_insert, Bool.or_eq_true] at hinsert
      rcases hinsert with hhead | hold
      · exact .inr ⟨head, by simp, by simpa using hhead⟩
      · exact .inl hold
    · exact .inr ⟨report, List.mem_cons_of_mem _ hreport, hid⟩

theorem knows_add_iff_of_known {gathered' : Gathered Origin} (h : gathered'.known = gathered.known)
    {state : ClaimState} : gathered'.Knows id state ↔ gathered.Knows id state := by
  unfold Knows
  rw [h]

theorem add_known (gathered : Gathered Origin) (reports : List (Report Origin))
    (ended : List (ClaimId Origin × EndReason)) (marks : List (Watermark Origin)) :
    (gathered.add reports ended marks).known =
      (reports.foldl (fun g report => g.note report.claim report.state) gathered).known := by
  unfold add
  rw [(foldl_mark_known marks _).1, foldl_noteEnd_known]

theorem Knows.add {state : ClaimState} (h : gathered.Knows id state)
    (reports : List (Report Origin)) (ended : List (ClaimId Origin × EndReason))
    (marks : List (Watermark Origin)) : (gathered.add reports ended marks).Knows id state :=
  (knows_add_iff_of_known (gathered.add_known reports ended marks)).mpr (h.foldl_note reports)

theorem knows_add_of_mem (gathered : Gathered Origin) {reports : List (Report Origin)}
    {report : Report Origin} (h : report ∈ reports) (ended : List (ClaimId Origin × EndReason))
    (marks : List (Watermark Origin)) :
    (gathered.add reports ended marks).Knows report.claim.id report.state :=
  (knows_add_iff_of_known (gathered.add_known reports ended marks)).mpr
    (knows_foldl_note_of_mem h gathered)

theorem ended_of_add_ended {reports : List (Report Origin)}
    {ended : List (ClaimId Origin × EndReason)} {marks : List (Watermark Origin)}
    (h : (gathered.add reports ended marks).ended.contains id = true) :
    gathered.ended.contains id = true ∨ ∃ report ∈ ended, report.1 = id := by
  unfold add at h
  rw [(foldl_mark_known marks _).2] at h
  simpa using foldl_noteEnd_ended h

end Gathered

end Synch.Locks
