import Synch.Locks.Node

/-!
# Fencing

A fenced commit holds the gate of its lock for read, and whatever ends this node's
hold takes it for write, so no hold ends under a commit.  The deadlines are another
matter: they are read once, when the commit is let through.  A commit is therefore
safe in every run in which it completes before the deadlines its hold had then, no
renewal brings them forward meanwhile, and no ticket wraps around.
-/

namespace Synch.Locks

open Std (TreeMap)
open List Synch.Support

variable {Origin : Type} [LinearOrder Origin]

/-- The hold was there, carried the token and had passed neither deadline. -/
def Own.Covers {Origin : Type} (own : Own Origin) (token : ClaimId Origin) (now : Instant) : Prop :=
  own.claim.id = token ∧ own.isHeld = true ∧ now < own.deadline ∧
    ∀ deadline, own.clientDeadline = some deadline → now < deadline

namespace Happening

/-- A fenced commit with the token was let through or completed. -/
def Uses {Origin : Type} (happening : Happening Origin) (lock : LockName)
    (token : ClaimId Origin) : Prop :=
  happening = .admitted lock token ∨ ∃ hold now, happening = .completed lock token hold now

/-- A completed commit was covered by this node's hold. -/
def IsCovered {Origin : Type} : Happening Origin → Prop
  | .completed _ token hold now => ∃ own, hold = some own ∧ own.Covers token now
  | _ => True

end Happening

/-- Every commit completed under a current hold, and none was let through or completed
after the hold with its token had ended. -/
def Fenced (log : List (Happening Origin)) : Prop :=
  (∀ happening ∈ log, happening.IsCovered) ∧ log.Pairwise fun earlier later =>
      ∀ lock token, earlier = .ended lock token → ¬later.Uses lock token

omit [LinearOrder Origin] in
theorem fenced_append_singleton {log : List (Happening Origin)} {happening : Happening Origin}
    (hfenced : Fenced log) (hcovered : happening.IsCovered)
    (huses : ∀ lock token, .ended lock token ∈ log → ¬happening.Uses lock token) :
    Fenced (log ++ [happening]) := by
  refine ⟨?_, pairwise_append.mpr ⟨hfenced.2, pairwise_singleton _ _, ?_⟩⟩
  · intro other hother
    rcases mem_append.mp hother with hother | hother
    · exact hfenced.1 other hother
    · rw [mem_singleton.mp hother]
      exact hcovered
  · rintro earlier hearlier later hlater lock token rfl
    rw [mem_singleton.mp hlater]
    exact huses lock token hearlier

namespace Node

/-- The condition each step has to meet: a ticket does not wrap around, a commit
completes before the deadlines its hold had when it was let through, and no renewal
brings them forward while a commit runs. -/
def FenceSound (s : Node Origin) : NodeEvent Origin → Prop
  | .beginAttempt request _ _ _ _ =>
    (max s.manager.table.clock (s.manager.table.entry request.lock).heard).toNat + 1 < 2 ^ 64
  | .complete _ _ limit now => now < limit
  | .renew lock _ ttl _ now =>
    (s.gates lock).commits = [] ∨ ((s.manager.hold lock).all fun own =>
      decide (own.limit ≤ now + ttl.getD (ofMillis own.claim.ttlMs))) = true
  | .finishRenewal lock _ _ sent _ =>
    (s.gates lock).commits = [] ∨ ((s.manager.hold lock).all fun own =>
      decide (own.limit ≤ sent + ofMillis own.claim.ttlMs)) = true
  | _ => True

instance (s : Node Origin) :
    (event : NodeEvent Origin) → Decidable (s.FenceSound event)
  | .beginAttempt _ _ _ _ _ => inferInstanceAs (Decidable (_ < _))
  | .complete _ _ _ _ => inferInstanceAs (Decidable (_ < _))
  | .renew _ _ _ _ _ | .finishRenewal _ _ _ _ _ => inferInstanceAs (Decidable (_ ∨ _))
  | .record _ _ _ _ _ | .receiveEnd _ _ _ _ _ _ | .endOther _ | .takeEnd _
  | .takeRelease _ _ | .takeLoss _ _ _ | .findHold _ | .readHead _ | .endHold _ _
  | .closeGate _ | .breakOthers _ _ _ _ | .enter _ | .giveUp _ | .conclude _ _ _ _
  | .pollHead _ | .report _ | .startRenewal _ _ | .sweep _ | .setHead _ _ | .fence _ _
  | .check _ _ _ => isTrue trivial

/-! ## Invariants -/

structure HoldInv (s : Node Origin) : Prop where
  exclusive : ∀ lock, (s.gates lock).ending ≠ none → (s.gates lock).commits = []
  admitted : ∀ lock, ∀ commit ∈ (s.gates lock).commits, ∀ limit,
    commit.limit = some limit →
      ∃ own, s.manager.hold lock = some own ∧ own.claim.id = commit.token ∧
        own.isHeld = true ∧ limit ≤ own.limit
  below : ∀ lock own, s.manager.hold lock = some own →
    own.claim.id.ticket.lamport ≤ s.manager.table.clock
  endedBelow : ∀ lock id, .ended lock id ∈ s.log → id.ticket.lamport ≤ s.manager.table.clock
  live : ∀ lock own, s.manager.hold lock = some own → .ended lock own.claim.id ∉ s.log
  fenced : Fenced s.log

/-- What holds of the attempts: the one on a lock finds no claim there but its own, and
that one not held yet. -/
structure AttemptInv (s : Node Origin) : Prop where
  entered : ∀ lock : LockName, s.attempts[lock]? = some .entered → s.manager.hold lock = none
  asking : ∀ (lock : LockName) claim allowBehind,
    s.attempts[lock]? = some (.asking claim allowBehind) →
      ∀ own, s.manager.hold lock = some own → own.claim.id = claim.id ∧ own.isHeld = false

/-- How a section may change this node's claim while commits run. -/
def Keeps (s : Node Origin) (lock : LockName) (own' : Option (Own Origin)) : Prop :=
  (s.manager.hold lock = none → own' = none) ∧
    ∀ own, s.manager.hold lock = some own →
      (∃ after, own' = some after ∧ after.claim.id = own.claim.id ∧
          (own.isHeld = true → after.isHeld = true ∧
            ((s.gates lock).commits = [] ∨ own.limit ≤ after.limit))) ∨
        own' = none ∧ (own.isHeld = true → (s.gates lock).commits = [])

theorem keeps_hold (s : Node Origin) (lock : LockName) : s.Keeps lock (s.manager.hold lock) :=
  ⟨fun h => h, fun own h => .inl ⟨own, h, rfl, fun hheld => ⟨hheld, .inr (Nat.le_refl _)⟩⟩⟩

variable {s t next : Node Origin} {lock : LockName} {own' : Option (Own Origin)}
    {manager : Manager Origin} {added : List (Watermark Origin)} {now : Instant}

/-- Dropping a claim is allowed where no commit runs or the claim is not held. -/
theorem keeps_filter (id : ClaimId Origin)
    (hdrop : ∀ own, s.manager.hold lock = some own → own.isHeld = true →
      (s.gates lock).commits = []) :
    s.Keeps lock ((s.manager.hold lock).filter fun own => own.claim.id != id) := by
  refine ⟨fun h => by rw [h]; rfl, fun own h => ?_⟩
  rw [h, Option.filter_some]
  split
  · exact .inl ⟨own, rfl, rfl, fun hheld => ⟨hheld, .inr (Nat.le_refl _)⟩⟩
  · exact .inr ⟨rfl, hdrop own h⟩

/-- A hold that a renewal went over, with its limits where they were. -/
theorem keeps_renewed {own own' : Own Origin} (hhold : s.manager.hold lock = some own)
    (hrenews : own.Renews own') (hlimit : (s.gates lock).commits = [] ∨ own.limit ≤ own'.limit) :
    s.Keeps lock (some own') := by
  refine ⟨fun h => ?_, fun before h => .inl ?_⟩
  · rw [hhold] at h
    cases h
  · rw [hhold] at h
    cases h
    exact ⟨own', rfl, hrenews.1, fun hheld => ⟨hrenews.2.trans hheld, hlimit⟩⟩

theorem endedHold_of_keeps (hkeeps : s.Keeps lock own') :
    endedHold lock (s.manager.hold lock) own' = [] ∨
      ∃ own, s.manager.hold lock = some own ∧ own' = none ∧
        endedHold lock (s.manager.hold lock) own' = [.ended lock own.claim.id] := by
  cases hhold : s.manager.hold lock with
  | none => exact .inl rfl
  | some own =>
    rcases hkeeps.2 own hhold with ⟨after, rfl, hid, -⟩ | ⟨rfl, -⟩
    · exact .inl (by simp [endedHold, hid])
    · exact .inr ⟨own, rfl, rfl, rfl⟩

/-- A section that keeps or properly ends the claim keeps the invariant. -/
theorem HoldInv.advance (hinv : s.HoldInv) (heffect : s.manager.Effect manager lock own' added)
    (hkeeps : s.Keeps lock own') : (s.advance lock manager).HoldInv := by
  have hself := heffect.hold
  -- The claim on any lock is the old one, up to a renewal.
  have hback : ∀ other own, manager.hold other = some own →
      ∃ before, s.manager.hold other = some before ∧ own.claim.id = before.claim.id := by
    intro other own hown
    by_cases hother : other = lock
    · subst hother
      cases hhold : s.manager.hold other with
      | none =>
        rw [hself, hkeeps.1 hhold] at hown
        cases hown
      | some before =>
        rcases hkeeps.2 before hhold with ⟨after, hafter, hid, -⟩ | ⟨hnone, -⟩
        · rw [hself, hafter] at hown
          exact ⟨before, rfl, Option.some.inj hown ▸ hid⟩
        · rw [hself, hnone] at hown
          cases hown
    · rw [heffect.hold_other other hother] at hown
      exact ⟨own, hown, rfl⟩
  have hlog : ∀ other id, .ended other id ∈ (s.advance lock manager).log →
      .ended other id ∈ s.log ∨
        other = lock ∧ manager.hold lock = none ∧
          ∃ own, s.manager.hold lock = some own ∧ own.claim.id = id := by
    intro other id hmem
    rcases mem_append.mp hmem with hmem | hmem
    · exact .inl hmem
    · rw [hself] at hmem
      rcases endedHold_of_keeps hkeeps with hnil | ⟨own, hown, hnone, hended⟩
      · rw [hnil] at hmem
        cases hmem
      · rw [hended] at hmem
        cases mem_singleton.mp hmem
        exact .inr ⟨rfl, hself.trans hnone, own, hown, rfl⟩
  refine ⟨hinv.exclusive, ?_, ?_, ?_, ?_, ?_⟩
  · intro other commit hcommit limit hlimit
    obtain ⟨own, hown, hid, hheld, hle⟩ := hinv.admitted other commit hcommit limit hlimit
    by_cases hother : other = lock
    · subst hother
      rcases hkeeps.2 own hown with ⟨after, hafter, hsame, hstill⟩ | ⟨-, hnone⟩
      · obtain ⟨hheld', hlimit'⟩ := hstill hheld
        refine ⟨after, hself.trans hafter, hsame.trans hid, hheld', hle.trans ?_⟩
        exact hlimit'.resolve_left (ne_nil_of_mem hcommit)
      · exact absurd (hnone hheld) (ne_nil_of_mem hcommit)
    · exact ⟨own, (heffect.hold_other other hother).trans hown, hid, hheld, hle⟩
  · intro other own hown
    obtain ⟨before, hbefore, hid⟩ := hback other own hown
    rw [hid]
    exact UInt64.le_trans (hinv.below other before hbefore) heffect.clock
  · intro other id hmem
    rcases hlog other id hmem with hmem | ⟨-, -, own, hown, rfl⟩
    · exact UInt64.le_trans (hinv.endedBelow other id hmem) heffect.clock
    · exact UInt64.le_trans (hinv.below lock own hown) heffect.clock
  · intro other own hown hmem
    rcases hlog other _ hmem with hmem | ⟨rfl, hnone, -⟩
    · obtain ⟨before, hbefore, hid⟩ := hback other own hown
      exact hinv.live other before hbefore (hid ▸ hmem)
    · have hown : manager.hold other = some own := hown
      rw [hnone] at hown
      cases hown
  · have hfenced := hinv.fenced
    unfold Node.advance
    rw [hself]
    rcases endedHold_of_keeps hkeeps with hnil | ⟨own, -, -, hended⟩
    · rw [hnil, append_nil]
      exact hfenced
    · rw [hended]
      refine fenced_append_singleton hfenced trivial fun _ _ _ huses => ?_
      rcases huses with huses | ⟨_, _, huses⟩ <;> cases huses

/-- A section that keeps the claim as it is, up to a renewal, keeps what the attempts
rely on. -/
theorem AttemptInv.advance (hinv : s.AttemptInv)
    (heffect : s.manager.Effect manager lock own' added) (hback : ∀ after, own' = some after →
      ∃ own, s.manager.hold lock = some own ∧ own.Renews after) :
    (s.advance lock manager).AttemptInv := by
  have hholds : ∀ other after, manager.hold other = some after →
      ∃ own, s.manager.hold other = some own ∧ own.Renews after := by
    intro other after hafter
    by_cases hother : other = lock
    · subst hother
      exact hback after (heffect.hold.symm.trans hafter)
    · rw [heffect.hold_other other hother] at hafter
      exact ⟨after, hafter, rfl, rfl⟩
  refine ⟨fun other hentered => ?_, fun other claim allowBehind hasking after hafter => ?_⟩
  · cases hafter : (s.advance lock manager).manager.hold other with
    | none => rfl
    | some after =>
      obtain ⟨own, hown, -⟩ := hholds other after hafter
      rw [hinv.entered other hentered] at hown
      cases hown
  · obtain ⟨own, hown, hid, hheld⟩ := hholds other after hafter
    obtain ⟨hclaim, hnot⟩ := hinv.asking other claim allowBehind hasking own hown
    exact ⟨hid.trans hclaim, hheld.trans hnot⟩

/-! ## Changes of one part -/

theorem HoldInv.of_parts (hinv : s.HoldInv) (hmanager : t.manager = s.manager)
    (hgates : t.gates = s.gates) (hlog : t.log = s.log) : t.HoldInv := by
  obtain ⟨exclusive, admitted, below, endedBelow, live, fenced⟩ := hinv
  rw [← hmanager, ← hgates, ← hlog] at *
  exact ⟨exclusive, admitted, below, endedBelow, live, fenced⟩

theorem AttemptInv.of_parts (hinv : s.AttemptInv) (hmanager : t.manager = s.manager)
    (hattempts : t.attempts = s.attempts) : t.AttemptInv := by
  obtain ⟨entered, asking⟩ := hinv
  rw [← hmanager, ← hattempts] at *
  exact ⟨entered, asking⟩

/-- The gate goes to an ending only where no commit has it. -/
theorem HoldInv.setEnding {ending : Option (Closing Origin)} (hinv : s.HoldInv)
    (hcommits : (s.gates lock).commits = []) : (s.setEnding lock ending).HoldInv := by
  refine ⟨fun other hending => ?_, fun other commit hcommit => ?_, hinv.below,
    hinv.endedBelow, hinv.live, hinv.fenced⟩
  · rw [setEnding_commits]
    by_cases hother : other = lock
    · rw [hother]
      exact hcommits
    · rw [setEnding_ending, if_neg hother] at hending
      exact hinv.exclusive other hending
  · rw [setEnding_commits] at hcommit
    exact hinv.admitted other commit hcommit

omit [LinearOrder Origin] in
theorem commits_of_isFree {gate : Gate Origin} (h : gate.isFree = true) : gate.commits = [] := by
  simp only [Gate.isFree, Bool.and_eq_true, List.isEmpty_iff] at h
  exact h.1

/-- Commits are added where no ending has the gate, and each that is let through is
covered by the hold. -/
theorem HoldInv.setCommits {commits : List (Commit Origin)} (hinv : s.HoldInv)
    (hending : (s.gates lock).ending ≠ none → commits = [])
    (hadmitted : ∀ commit ∈ commits, ∀ limit, commit.limit = some limit →
      ∃ own, s.manager.hold lock = some own ∧ own.claim.id = commit.token ∧
        own.isHeld = true ∧ limit ≤ own.limit) : (s.setCommits lock commits).HoldInv := by
  refine ⟨fun other hother => ?_, fun other commit hcommit => ?_, hinv.below,
    hinv.endedBelow, hinv.live, hinv.fenced⟩
  · rw [setCommits_ending] at hother
    rw [setCommits_commits]
    split
    · next h => exact hending (h ▸ hother)
    · exact hinv.exclusive other hother
  · rw [setCommits_commits] at hcommit
    split at hcommit
    · next h =>
      rw [h]
      exact hadmitted commit hcommit
    · exact hinv.admitted other commit hcommit

theorem HoldInv.happens {happening : Happening Origin} (hinv : s.HoldInv)
    (hcovered : happening.IsCovered) (hended : ∀ lock id, happening ≠ .ended lock id)
    (huses : ∀ lock token, .ended lock token ∈ s.log → ¬happening.Uses lock token) :
    (s.happens happening).HoldInv := by
  have hlog : ∀ lock id, .ended lock id ∈ (s.happens happening).log → .ended lock id ∈ s.log := by
    intro lock id hmem
    rcases mem_append.mp hmem with hmem | hmem
    · exact hmem
    · exact absurd (mem_singleton.mp hmem).symm (hended lock id)
  exact ⟨hinv.exclusive, hinv.admitted, hinv.below,
    fun lock id hmem => hinv.endedBelow lock id (hlog lock id hmem),
    fun lock own hown hmem => hinv.live lock own hown (hlog lock _ hmem),
    fenced_append_singleton hinv.fenced hcovered huses⟩

/-- A change of one lock's attempt and claim keeps what the others rely on. -/
theorem AttemptInv.replace (hs : s.AttemptInv)
    (hattempts : ∀ other, other ≠ lock → t.attempts[other]? = s.attempts[other]?)
    (hholds : ∀ other, other ≠ lock → t.manager.hold other = s.manager.hold other)
    (hentered : t.attempts[lock]? = some .entered → t.manager.hold lock = none)
    (hasking : ∀ claim allowBehind, t.attempts[lock]? = some (.asking claim allowBehind) →
      ∀ own, t.manager.hold lock = some own →
        own.claim.id = claim.id ∧ own.isHeld = false) : t.AttemptInv := by
  refine ⟨fun other h => ?_, fun other claim allowBehind h => ?_⟩
  · by_cases hother : other = lock
    · subst hother
      exact hentered h
    · rw [hattempts other hother] at h
      rw [hholds other hother]
      exact hs.entered other h
  · by_cases hother : other = lock
    · subst hother
      exact hasking claim allowBehind h
    · rw [hattempts other hother] at h
      rw [hholds other hother]
      exact hs.asking other claim allowBehind h

theorem AttemptInv.dropAttempt (hs : s.AttemptInv)
    (hattempts : t.attempts = (s.dropAttempt lock).attempts)
    (hholds : ∀ other, other ≠ lock → t.manager.hold other = s.manager.hold other) :
    t.AttemptInv := by
  have hnone : t.attempts[lock]? = none := by
    rw [hattempts, dropAttempt_attempts, if_pos rfl]
  refine hs.replace (fun other hother => ?_) hholds (fun h => ?_) (fun _ _ h => ?_)
  · rw [hattempts, dropAttempt_attempts, if_neg hother.symm]
  · rw [hnone] at h
    cases h
  · rw [hnone] at h
    cases h

theorem AttemptInv.setAttempt {attempt : Attempt Origin} (hs : s.AttemptInv)
    (hattempts : t.attempts = (s.setAttempt lock attempt).attempts)
    (hholds : ∀ other, other ≠ lock → t.manager.hold other = s.manager.hold other)
    (hentered : attempt = .entered → t.manager.hold lock = none)
    (hasking : ∀ claim allowBehind, attempt = .asking claim allowBehind →
      ∀ own, t.manager.hold lock = some own →
        own.claim.id = claim.id ∧ own.isHeld = false) : t.AttemptInv := by
  have hself : t.attempts[lock]? = some attempt := by
    rw [hattempts, setAttempt_attempts, if_pos rfl]
  refine hs.replace (fun other hother => ?_) hholds (fun h => ?_) (fun claim behind h => ?_)
  · rw [hattempts, setAttempt_attempts, if_neg hother.symm]
  · exact hentered (Option.some.inj (hself.symm.trans h))
  · exact hasking claim behind (Option.some.inj (hself.symm.trans h))

/-! ## Steps -/

/-- The two invariants together. -/
structure FenceInv (s : Node Origin) : Prop where
  holds : s.HoldInv
  attempts : s.AttemptInv

section

variable (hinv : s.FenceInv)
include hinv

/-- A section that leaves the claim, up to a renewal. -/
theorem FenceInv.advance_renewed {own own' : Own Origin} (hhold : s.manager.hold lock = some own)
    (hrenews : own.Renews own') (hlimit : (s.gates lock).commits = [] ∨ own.limit ≤ own'.limit)
    (heffect : s.manager.Effect manager lock (some own') added) :
    (s.advance lock manager).FenceInv :=
  ⟨hinv.holds.advance heffect (keeps_renewed hhold hrenews hlimit),
    hinv.attempts.advance heffect fun _ hafter =>
      ⟨own, hhold, Option.some.inj hafter ▸ hrenews⟩⟩

/-- A section that does not touch the claim. -/
theorem FenceInv.advance_same
    (heffect : s.manager.Effect manager lock (s.manager.hold lock) added) :
    (s.advance lock manager).FenceInv :=
  ⟨hinv.holds.advance heffect (s.keeps_hold lock),
    hinv.attempts.advance heffect fun after hafter => ⟨after, hafter, rfl, rfl⟩⟩

/-- A section that drops a claim where no commit runs or the claim is not held. -/
theorem FenceInv.advance_dropped {id : ClaimId Origin}
    (hdrop : ∀ own, s.manager.hold lock = some own → own.isHeld = true → (s.gates lock).commits = [])
    (heffect : s.manager.Effect manager lock ((s.manager.hold lock).filter fun own => own.claim.id != id) added) :
    (s.advance lock manager).FenceInv := by
  refine ⟨hinv.holds.advance heffect (keeps_filter id hdrop),
    hinv.attempts.advance heffect fun after hafter => ⟨after, ?_, rfl, rfl⟩⟩
  exact (Option.filter_eq_some_iff.mp hafter).1

theorem FenceInv.setEnding {ending : Option (Closing Origin)}
    (hcommits : (s.gates lock).commits = []) : (s.setEnding lock ending).FenceInv :=
  ⟨hinv.holds.setEnding hcommits, hinv.attempts.of_parts rfl rfl⟩

theorem FenceInv.endHold (hend : s.endHold lock now = some manager) :
    ((s.advance lock manager).setEnding lock (some .telling)).FenceInv := by
  unfold Node.endHold at hend
  have hcommits : (s.gates lock).commits = [] := by
    apply hinv.holds.exclusive lock
    intro hnone
    rw [hnone] at hend
    cases hend
  refine FenceInv.setEnding (s := s.advance lock manager) ?_ hcommits
  have hdrop : ∀ own, s.manager.hold lock = some own → own.isHeld = true →
      (s.gates lock).commits = [] := fun _ _ _ => hcommits
  split at hend
  · cases hend
    exact hinv.advance_dropped hdrop (Manager.endRelease_effect _ _ _ _ _)
  · cases hend
    exact hinv.advance_dropped hdrop (Manager.lose_effect _ _ _ _ _)
  · cases hend
    exact hinv.advance_dropped hdrop (Manager.endOwn_effect _ _ _ _ _)
  · cases hend

theorem FenceInv.beginAttempt {request : LockRequest} {allowBehind : Bool} {nonce : UInt64}
    {wall : Int} (hentered : s.attempts[request.lock]? = some .entered)
    (hroom : (max s.manager.table.clock (s.manager.table.entry request.lock).heard).toNat + 1 < 2 ^ 64) :
    ((s.advance request.lock (s.manager.beginAttempt request nonce now wall).1).setAttempt
      request.lock
      (.asking (s.manager.beginAttempt request nonce now wall).2 allowBehind)).FenceInv := by
  obtain ⟨habove, hclock, own, hclaim, hnot, heffect⟩ :=
    s.manager.beginAttempt_effect now request nonce wall hroom
  have hnone := hinv.attempts.entered request.lock hentered
  have hlog : (s.advance request.lock
      (s.manager.beginAttempt request nonce now wall).1).log = s.log := by
    simp [Node.advance, hnone, endedHold]
  refine ⟨HoldInv.of_parts (s := { s with
    manager := (s.manager.beginAttempt request nonce now wall).1 }) ?_ rfl rfl hlog, ?_⟩
  · refine ⟨hinv.holds.exclusive, ?_, ?_, ?_, ?_, hinv.holds.fenced⟩
    · intro other commit hcommit limit hlimit
      obtain ⟨before, hbefore, hrest⟩ :=
        hinv.holds.admitted other commit hcommit limit hlimit
      by_cases hother : other = request.lock
      · rw [hother, hnone] at hbefore
        cases hbefore
      · exact ⟨before, (heffect.hold_other other hother).trans hbefore, hrest⟩
    · intro other own' hown'
      by_cases hother : other = request.lock
      · subst hother
        obtain rfl := Option.some.inj (heffect.hold.symm.trans hown')
        rw [hclaim, hclock]
        exact UInt64.le_refl _
      · have hown' := (heffect.hold_other other hother).symm.trans hown'
        exact UInt64.le_trans (hinv.holds.below other own' hown') heffect.clock
    · exact fun other id hmem =>
        UInt64.le_trans (hinv.holds.endedBelow other id hmem) heffect.clock
    · intro other own' hown' hmem
      by_cases hother : other = request.lock
      · subst hother
        obtain rfl := Option.some.inj (heffect.hold.symm.trans hown')
        have hle := hinv.holds.endedBelow _ _ hmem
        rw [hclaim] at hle
        exact absurd habove (UInt64.not_lt.mpr hle)
      · exact hinv.holds.live other own' ((heffect.hold_other other hother).symm.trans hown') hmem
  · refine hinv.attempts.setAttempt rfl heffect.hold_other nofun ?_
    intro claim behind hasking own' hown'
    obtain rfl := Option.some.inj (heffect.hold.symm.trans hown')
    cases hasking
    exact ⟨congrArg Claim.id hclaim, hnot⟩

theorem FenceInv.conclude {claim : Claim Origin} {allowBehind : Bool}
    {answers : List (LockMessage Origin)} {deadline : Instant}
    (hasking : s.attempts[lock]? = some (.asking claim allowBehind)) :
    (s.conclude lock claim allowBehind answers deadline now).FenceInv := by
  obtain ⟨own', heffect, hown⟩ :=
    s.manager.concludeAttempt_effect lock claim (gather answers) deadline now
  have hnot := hinv.attempts.asking lock claim allowBehind hasking
  -- The claim that is decided is not held, so no commit was let through under it.
  have hkeeps : s.Keeps lock own' := by
    rcases hown with rfl | ⟨mine, hmine, hid, hheld, hown⟩
    · apply keeps_filter
      intro own hown hheld
      rw [(hnot own hown).2] at hheld
      cases hheld
    · refine ⟨fun h => ?_, fun own h => ?_⟩
      · rw [hmine] at h
        cases h
      · rw [hmine] at h
        cases h
        rcases hown with rfl | ⟨held, rfl, hsame⟩
        · refine .inr ⟨rfl, fun h => ?_⟩
          rw [hheld] at h
          cases h
        · refine .inl ⟨held, rfl, hsame.trans hid.symm, fun h => ?_⟩
          rw [hheld] at h
          cases h
  have hholds := hinv.holds.advance heffect hkeeps
  unfold Node.conclude
  dsimp only
  split
  · exact ⟨hholds.of_parts rfl rfl rfl, hinv.attempts.setAttempt rfl heffect.hold_other nofun nofun⟩
  · exact ⟨hholds.of_parts rfl rfl rfl, hinv.attempts.dropAttempt rfl heffect.hold_other⟩

theorem FenceInv.sweep (now : Instant) :
    ({ s with manager := { s.manager with
        table := s.manager.table.sweep now } } : Node Origin).FenceInv := by
  have hhold : ∀ lock, ({ s.manager with
      table := s.manager.table.sweep now } : Manager Origin).hold lock = s.manager.hold lock :=
    fun lock => (s.manager.table.sweep_own_and_watermarks now lock).1
  have hclock : (s.manager.table.sweep now).clock = s.manager.table.clock :=
    (Table.trimEnded_clock _).1
  obtain ⟨⟨exclusive, admitted, below, endedBelow, live, fenced⟩, ⟨entered, asking⟩⟩ := hinv
  refine ⟨⟨exclusive, ?_, ?_, ?_, ?_, fenced⟩, ⟨?_, ?_⟩⟩
  · simpa only [hhold] using admitted
  · simpa only [hhold, hclock] using below
  · simpa only [hclock] using endedBelow
  · simpa only [hhold] using live
  · simpa only [hhold] using entered
  · simpa only [hhold] using asking

/-- A commit that the check lets through is covered by the hold it found. -/
theorem FenceInv.check {token : ClaimId Origin} [ToString Origin]
    (hstep : s.step (.check lock token now) = some next) : next.FenceInv := by
  simp only [Node.step] at hstep
  split at hstep
  · next hmem =>
    have hending : (s.gates lock).ending = none := by
      by_contra hending
      rw [hinv.holds.exclusive lock hending] at hmem
      cases hmem
    have hothers : ∀ commit ∈ (s.gates lock).commits.erase ⟨token, none⟩, ∀ limit,
        commit.limit = some limit →
          ∃ own, s.manager.hold lock = some own ∧ own.claim.id = commit.token ∧
            own.isHeld = true ∧ limit ≤ own.limit :=
      fun commit hcommit => hinv.holds.admitted lock commit (mem_of_mem_erase hcommit)
    split at hstep
    · next own hfound =>
      cases hstep
      obtain ⟨hown, hlets⟩ := Option.filter_eq_some_iff.mp hfound
      simp only [Own.letsThrough, Bool.and_eq_true, beq_iff_eq] at hlets
      obtain ⟨⟨hid, hheld⟩, -⟩ := hlets
      have hcommits : (s.setCommits lock ((s.gates lock).commits.erase ⟨token, none⟩ ++
          [⟨token, some own.limit⟩])).HoldInv := by
        refine hinv.holds.setCommits (fun h => absurd hending h) ?_
        intro commit hcommit limit hlimit
        rcases mem_append.mp hcommit with hcommit | hcommit
        · exact hothers commit hcommit limit hlimit
        · obtain rfl := mem_singleton.mp hcommit
          cases hlimit
          exact ⟨own, hown, hid, hheld, Nat.le_refl _⟩
      refine ⟨hcommits.happens trivial nofun ?_, hinv.attempts.of_parts rfl rfl⟩
      rintro other used hmem (huses | ⟨_, _, huses⟩)
      · cases huses
        exact hinv.holds.live lock own hown (hid ▸ hmem)
      · cases huses
    · cases hstep
      exact ⟨hinv.holds.setCommits (fun h => absurd hending h) hothers,
        hinv.attempts.of_parts rfl rfl⟩
  · cases hstep

/-- A commit completes under the hold it was let through under. -/
theorem FenceInv.complete {token : ClaimId Origin} {limit : Instant} [ToString Origin]
    (hsound : now < limit) (hstep : s.step (.complete lock token limit now) = some next) :
    next.FenceInv := by
  simp only [Node.step] at hstep
  split at hstep
  · next hmem =>
    cases hstep
    obtain ⟨own, hown, hid, hheld, hlimit⟩ := hinv.holds.admitted lock _ hmem limit rfl
    have hcommits : (s.setCommits lock
        ((s.gates lock).commits.erase ⟨token, some limit⟩)).HoldInv := by
      refine hinv.holds.setCommits (fun hending => ?_) fun commit hcommit =>
        hinv.holds.admitted lock commit (mem_of_mem_erase hcommit)
      rw [hinv.holds.exclusive lock hending] at hmem
      cases hmem
    have hbefore : now < own.limit := Nat.lt_of_lt_of_le hsound hlimit
    have hcovers : own.Covers token now :=
      ⟨hid, hheld, Nat.lt_of_lt_of_le hbefore own.limit_le_deadline,
        fun deadline h => Nat.lt_of_lt_of_le hbefore (own.limit_le_client h)⟩
    refine ⟨hcommits.happens ⟨own, hown, hcovers⟩ nofun ?_, hinv.attempts.of_parts rfl rfl⟩
    rintro other used hended (huses | ⟨_, _, huses⟩)
    · cases huses
    · cases huses
      exact hinv.holds.live lock own hown (hid ▸ hended)
  · cases hstep

theorem FenceInv.step [ToString Origin] {event : NodeEvent Origin} (hsound : s.FenceSound event)
    (hstep : s.step event = some next) : next.FenceInv := by
  -- An operation that holds the gate for write finds no commit there.
  have hwriter : ∀ lock ending, (s.gates lock).ending = some ending →
      (s.gates lock).commits = [] := fun lock ending h =>
    hinv.holds.exclusive lock (by rw [h]; exact nofun)
  cases event with
  | record writers lock claim renewal now =>
    cases hstep
    exact hinv.advance_same (Manager.record_effect _ _ _ _ _ _)
  | receiveEnd writers lock id reason watermark now =>
    simp only [Node.step] at hstep
    split at hstep
    · cases hstep
      exact ⟨hinv.holds.of_parts rfl rfl rfl, hinv.attempts.of_parts rfl rfl⟩
    · cases hstep
      exact hinv
  | endOther message =>
    obtain ⟨-, rfl⟩ := guard_eq_some hstep
    have hnext := hinv.advance_same (Manager.endOther_effect s.manager message.lock
      message.id message.reason message.watermark message.now)
    exact ⟨hnext.holds.of_parts rfl rfl rfl, hnext.attempts.of_parts rfl rfl⟩
  | takeEnd message =>
    obtain ⟨h, rfl⟩ := guard_eq_some hstep
    have hnext : (s.setEnding message.lock
        (some (.peerEnd message.id message.reason message.now))).HoldInv :=
      hinv.holds.setEnding (commits_of_isFree h.2.2)
    exact ⟨hnext.of_parts rfl rfl rfl, hinv.attempts.of_parts rfl rfl⟩
  | takeRelease lock token | takeLoss lock id lost =>
    obtain ⟨h, rfl⟩ := guard_eq_some hstep
    exact hinv.setEnding (commits_of_isFree h)
  | findHold lock | readHead lock =>
    simp only [Node.step] at hstep
    split at hstep
    · next h =>
      cases hstep
      exact hinv.setEnding (hwriter lock _ h)
    · cases hstep
  | endHold lock now =>
    obtain ⟨ended, hended, rfl⟩ := Option.map_eq_some_iff.mp hstep
    exact hinv.endHold hended
  | closeGate lock =>
    simp only [Node.step] at hstep
    split at hstep
    · next h =>
      cases hstep
      exact hinv.setEnding (hwriter lock _ h)
    · next h =>
      cases hstep
      exact hinv.setEnding (hwriter lock _ h)
    · cases hstep
  | breakOthers lock holder answers now =>
    cases hstep
    exact hinv.advance_same (Manager.breakOthers_effect _ _ _ _ _)
  | enter lock =>
    obtain ⟨h, rfl⟩ := guard_eq_some hstep
    exact ⟨hinv.holds.of_parts rfl rfl rfl, hinv.attempts.setAttempt rfl
      (fun _ _ => rfl) (fun _ => Option.isNone_iff_eq_none.mp h.2) nofun⟩
  | beginAttempt request allowBehind nonce now wall =>
    simp only [Node.step] at hstep
    split at hstep
    · next hentered =>
      cases hstep
      exact hinv.beginAttempt hentered hsound
    · cases hstep
  | giveUp lock =>
    simp only [Node.step] at hstep
    split at hstep
    · next claim allowBehind hasking =>
      cases hstep
      have heffect := s.manager.dropAttempt_effect lock claim.id
      have hnext := hinv.advance_dropped (fun own hown hheld => by
        rw [(hinv.attempts.asking lock claim allowBehind hasking own hown).2] at hheld
        cases hheld) heffect
      exact ⟨hnext.holds.of_parts rfl rfl rfl, hinv.attempts.dropAttempt rfl heffect.hold_other⟩
    · cases hstep
      exact ⟨hinv.holds.of_parts rfl rfl rfl, hinv.attempts.dropAttempt rfl fun _ _ => rfl⟩
    · cases hstep
  | conclude lock answers deadline now =>
    simp only [Node.step] at hstep
    split at hstep
    · next hasking =>
      cases hstep
      exact hinv.conclude hasking
    · cases hstep
  | pollHead lock =>
    simp only [Node.step] at hstep
    split at hstep
    · cases hstep
      exact ⟨hinv.holds.of_parts rfl rfl rfl,
        hinv.attempts.setAttempt rfl (fun _ _ => rfl) nofun nofun⟩
    · cases hstep
  | report lock =>
    simp only [Node.step] at hstep
    split at hstep
    · split at hstep
      · cases hstep
        refine ⟨HoldInv.happens (s := s.dropAttempt lock) ?_ trivial nofun ?_,
          hinv.attempts.dropAttempt rfl fun _ _ => rfl⟩
        · exact hinv.holds.of_parts rfl rfl rfl
        · rintro _ _ _ (huses | ⟨_, _, huses⟩) <;> cases huses
      · cases hstep
    · cases hstep
  | startRenewal lock now =>
    obtain ⟨⟨started, claim⟩, hstarted, rfl⟩ := Option.map_eq_some_iff.mp hstep
    obtain ⟨own, own', hhold, -, hrenews, hlimit, hupdates⟩ :=
      Manager.startRenewal_updates hstarted
    exact hinv.advance_renewed hhold hrenews (.inr (Nat.le_of_eq hlimit.symm))
      (hupdates.effect_own rfl rfl)
  | finishRenewal lock claim answers sent now =>
    cases hstep
    obtain ⟨own', heffect, hnone, hsome⟩ :=
      s.manager.finishRenewal_effect lock claim (gather answers) sent now
    cases hhold : s.manager.hold lock with
    | none =>
      rw [hnone hhold, ← hhold] at heffect
      exact hinv.advance_same heffect
    | some own =>
      obtain ⟨after, rfl, hrenews, hlimit⟩ := hsome own hhold
      refine hinv.advance_renewed hhold hrenews (hsound.imp_right fun h => ?_) heffect
      rw [hhold] at h
      exact hlimit (by simpa using h)
  | renew lock token ttl payload now =>
    obtain ⟨renewed, hrenewed, rfl⟩ := Option.map_eq_some_iff.mp hstep
    obtain ⟨own, own', hhold, hrenews, hlimit, hupdates⟩ := Manager.renew_updates hrenewed
    refine hinv.advance_renewed hhold hrenews (hsound.imp_right fun h => ?_)
      (hupdates.effect_own rfl rfl)
    rw [hhold] at h
    exact hlimit (by simpa using h)
  | sweep now =>
    cases hstep
    exact hinv.sweep now
  | setHead origin seq =>
    cases hstep
    exact ⟨hinv.holds.of_parts rfl rfl rfl, hinv.attempts.of_parts rfl rfl⟩
  | fence lock token =>
    obtain ⟨hending, rfl⟩ := guard_eq_some hstep
    have hending := Option.isNone_iff_eq_none.mp hending
    refine ⟨hinv.holds.setCommits (fun h => absurd hending h) ?_, hinv.attempts.of_parts rfl rfl⟩
    intro commit hcommit limit hlimit
    rcases mem_append.mp hcommit with hcommit | hcommit
    · exact hinv.holds.admitted lock commit hcommit limit hlimit
    · obtain rfl := mem_singleton.mp hcommit
      cases hlimit
  | check lock token now => exact hinv.check hstep
  | complete lock token limit now => exact hinv.complete hsound hstep

end

theorem fresh_fenceInv (origin : Origin) (heads : Origin → Option UInt64) :
    (fresh origin heads).FenceInv := by
  have hnone : ∀ lock, (fresh origin heads).manager.hold lock = none := by
    intro lock
    simp [fresh, Manager.hold, Table.entry]
  refine ⟨⟨by simp [fresh], by simp [fresh], ?_, by simp [fresh], by simp [fresh],
    ⟨by simp [fresh], .nil⟩⟩, ⟨fun lock _ => hnone lock, ?_⟩⟩
  · intro lock own hown
    rw [hnone] at hown
    cases hown
  · intro lock claim allowBehind hasking
    simp [fresh] at hasking

end Node

private def fenceLock : LockName := ⟨"s", "l"⟩

private def fenceToken : ClaimId Nat := ⟨⟨1, 0⟩, 7⟩

/-- Acquire the lock for ten nanoseconds, with no peer to ask. -/
private def acquireEvents (mode : HoldMode) : List (NodeEvent Nat) :=
  [.enter fenceLock,
    .beginAttempt
      { lock := fenceLock, ttl := 10, owner := "", payload := [], mode := mode } false 7 0 0,
    .conclude fenceLock [] 10 1, .report fenceLock]

end Synch.Locks
