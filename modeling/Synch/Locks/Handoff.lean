import Mathlib.Data.List.Induction
import Synch.Locks.Node

/-!
# Handoff

An acquirer that may not be behind waits until its complete heads reach the
watermarks that the answers to its claim carried for other origins.  The watermarks
in its own table are not among those it waits for.  So a lock is reported acquired
with all recorded writes here in every run in which the ones not waited for are
already here, and in which nothing recorded or demoted during a wait falls behind.
-/

namespace Synch.Locks

open Std (TreeMap)
open List Synch.Support

variable {Origin : Type} [LinearOrder Origin]

/-! ## What answers carry -/

/-- The gathered watermarks are among those carried, and none carried is above the one
gathered for its origin. -/
structure Gathered.MarksOf
    (gathered : Gathered Origin) (carried : List (Watermark Origin)) : Prop where
  mem : ∀ (origin : Origin) slot, gathered.watermarks[origin]? = some slot →
    slot.origin = origin ∧ slot ∈ carried
  le : ∀ mark ∈ carried, ∃ slot, gathered.watermarks[mark.origin]? = some slot ∧ mark.seq ≤ slot.seq

variable {gathered : Gathered Origin} {carried : List (Watermark Origin)}

theorem Gathered.MarksOf.mark (h : gathered.MarksOf carried) (mark : Watermark Origin) :
    (gathered.mark mark).MarksOf (carried ++ [mark]) := by
  have hself : (gathered.mark mark).watermarks[mark.origin]? =
      some (if (gathered.watermarks.getD mark.origin mark).seq < mark.seq then mark
        else gathered.watermarks.getD mark.origin mark) := by
    simp [Gathered.mark]
  have hother : ∀ origin, origin ≠ mark.origin →
      (gathered.mark mark).watermarks[origin]? = gathered.watermarks[origin]? := by
    intro origin hne
    simp [Gathered.mark, TreeMap.getElem?_insert, hne.symm]
  -- The slot before the mark is one that was carried, or the mark itself.
  have hslot : (gathered.watermarks.getD mark.origin mark).origin = mark.origin ∧
      gathered.watermarks.getD mark.origin mark ∈ carried ++ [mark] := by
    rw [TreeMap.getD_eq_getD_getElem?]
    cases hfound : gathered.watermarks[mark.origin]? with
    | none => simp
    | some slot =>
      obtain ⟨horigin, hmem⟩ := h.mem mark.origin slot hfound
      exact ⟨horigin, mem_append_left _ hmem⟩
  refine ⟨fun origin slot hfound => ?_, fun other hmem => ?_⟩
  · by_cases horigin : origin = mark.origin
    · subst horigin
      obtain rfl := Option.some.inj (hself.symm.trans hfound)
      split
      · exact ⟨rfl, by simp⟩
      · exact hslot
    · rw [hother origin horigin] at hfound
      obtain ⟨hsame, hmem⟩ := h.mem origin slot hfound
      exact ⟨hsame, mem_append_left _ hmem⟩
  · by_cases horigin : other.origin = mark.origin
    · rw [horigin, hself]
      refine ⟨_, rfl, ?_⟩
      have hbound : other.seq ≤ mark.seq ∨
          other.seq ≤ (gathered.watermarks.getD mark.origin mark).seq := by
        rcases mem_append.mp hmem with hmem | hmem
        · obtain ⟨slot, hfound, hle⟩ := h.le other hmem
          rw [horigin] at hfound
          rw [TreeMap.getD_eq_getD_getElem?, hfound]
          exact .inr hle
        · rw [mem_singleton.mp hmem]
          exact .inl (UInt64.le_refl _)
      split
      · next hlt =>
        exact hbound.elim id fun hle => UInt64.le_trans hle (UInt64.le_of_lt hlt)
      · next hlt =>
        exact hbound.elim (fun hle => UInt64.le_trans hle (UInt64.not_lt.mp hlt)) id
    · rw [hother other.origin horigin]
      rcases mem_append.mp hmem with hmem | hmem
      · exact h.le other hmem
      · exact absurd (congrArg Watermark.origin (mem_singleton.mp hmem)) horigin

theorem Gathered.MarksOf.foldl_mark (h : gathered.MarksOf carried)
    (marks : List (Watermark Origin)) :
    (marks.foldl Gathered.mark gathered).MarksOf (carried ++ marks) := by
  induction marks generalizing gathered carried with
  | nil => simpa using h
  | cons mark marks ih =>
    have hrest := ih (h.mark mark)
    rwa [append_assoc, singleton_append] at hrest

theorem Gathered.MarksOf.of_watermarks_eq {gathered' : Gathered Origin}
    (h : gathered.MarksOf carried) (heq : gathered'.watermarks = gathered.watermarks) :
    gathered'.MarksOf carried := by
  obtain ⟨mem, le⟩ := h
  rw [← heq] at *
  exact ⟨mem, le⟩

theorem foldl_note_watermarks (reports : List (Report Origin)) (gathered : Gathered Origin) :
    (reports.foldl (fun g report => g.note report.claim report.state) gathered).watermarks =
      gathered.watermarks := by
  induction reports generalizing gathered with
  | nil => rfl
  | cons report reports ih => exact ih (gathered.note report.claim report.state)

theorem foldl_noteEnd_watermarks
    (ended : List (ClaimId Origin × EndReason)) (gathered : Gathered Origin) :
    (ended.foldl Gathered.noteEnd gathered).watermarks = gathered.watermarks := by
  induction ended generalizing gathered with
  | nil => rfl
  | cons report ended ih => exact ih (gathered.noteEnd report)

theorem gather_marksOf (answers : List (LockMessage Origin)) :
    (gather answers).MarksOf (answers.flatMap LockMessage.watermarks) := by
  induction answers using reverseRecOn with
  | nil => exact ⟨by simp [gather], by simp⟩
  | append_singleton answers answer ih =>
    rw [gather, foldl_append, flatMap_append, flatMap_singleton]
    cases answer with
    | answer reports ended watermarks =>
      apply Gathered.MarksOf.foldl_mark
      apply ih.of_watermarks_eq
      rw [foldl_noteEnd_watermarks, foldl_note_watermarks]
      rfl
    | claim | renew | ended | inspect | ack | refused =>
      simp only [LockMessage.watermarks, append_nil]
      exact ih

/-- What is waited for covers all that was carried for other origins. -/
theorem exists_handoff {answers : List (LockMessage Origin)} {self : Origin}
    {mark : Watermark Origin} (hmem : mark ∈ answers.flatMap LockMessage.watermarks)
    (hother : mark.origin ≠ self) :
    ∃ awaited ∈ (gather answers).handoff self,
      awaited.origin = mark.origin ∧ mark.seq ≤ awaited.seq := by
  obtain ⟨slot, hslot, hle⟩ := (gather_marksOf answers).le mark hmem
  have horigin := ((gather_marksOf answers).mem _ _ hslot).1
  refine ⟨slot, ?_, horigin, hle⟩
  rw [Gathered.handoff, mem_filter]
  exact ⟨mem_valuesOf_iff.mpr ⟨_, hslot⟩, by simpa [horigin] using hother⟩

theorem mem_carried_of_mem_gathered {answers : List (LockMessage Origin)} {mark : Watermark Origin}
    (hmem : mark ∈ valuesOf (gather answers).watermarks) :
    mark ∈ answers.flatMap LockMessage.watermarks := by
  obtain ⟨origin, hfound⟩ := mem_valuesOf_iff.mp hmem
  exact ((gather_marksOf answers).mem origin mark hfound).2

/-- Every lock reported acquired by a caller that may not be behind had all its
recorded watermarks reached. -/
def HandoffSeen (log : List (Happening Origin)) : Prop :=
  ∀ lock id behind, .acquired lock id false behind ∈ log → behind = []

/-- An attempt that may not be behind waits for its handoff. -/
def Attempt.awaitsHandoff {Origin : Type} : Attempt Origin → Bool
  | .awaiting _ false _ _ _ => true
  | _ => false

namespace Node

/-- A watermark is waited for, as one that some answer carried for another origin, or
reached already. -/
def Covered
    (s : Node Origin) (carried : List (Watermark Origin)) (mark : Watermark Origin) :
    Prop :=
  (mark.origin ≠ s.manager.origin ∧
      ∃ other ∈ carried, other.origin = mark.origin ∧ mark.seq ≤ other.seq) ∨
    mark.seq ≤ s.headSeq mark.origin

instance (s : Node Origin) (carried : List (Watermark Origin)) (mark : Watermark Origin) :
    Decidable (s.Covered carried mark) :=
  inferInstanceAs (Decidable ((_ ∧ _) ∨ _))

/-- Watermarks that come in for a lock whose handoff is awaited are covered. -/
def Admits (s : Node Origin) (lock : LockName) (marks : List (Watermark Origin)) : Prop :=
  match s.attempts[lock]? with
  | some (.awaiting _ false carried _ _) => ∀ mark ∈ marks, s.Covered carried mark
  | _ => True

instance (s : Node Origin) (lock : LockName) (marks : List (Watermark Origin)) :
    Decidable (s.Admits lock marks) := by
  unfold Admits
  split <;> infer_instance

/-- The condition each step has to meet: a decided claim finds the watermarks that are
not waited for reached, and while a handoff is awaited no watermark comes in behind it
and no complete head goes down. -/
def HandoffSound (s : Node Origin) : NodeEvent Origin → Prop
  | .conclude lock answers _ _ =>
    match s.attempts[lock]? with
    | some (.asking _ false) =>
      ∀ mark ∈ s.tableMarks lock ++ answers.flatMap LockMessage.watermarks,
        s.Covered (answers.flatMap LockMessage.watermarks) mark
    | _ => True
  | .endOther message => s.Admits message.lock message.watermark.toList
  | .finishRenewal lock _ answers _ _ =>
    s.Admits lock (answers.flatMap LockMessage.watermarks)
  | .endHold lock _ =>
    match (s.gates lock).ending with
    | some (.marked _ watermark) => s.Admits lock watermark.toList
    | _ => True
  | .setHead origin seq =>
    (∀ attempt ∈ valuesOf s.attempts, attempt.awaitsHandoff = false) ∨ s.headSeq origin ≤ seq.getD 0
  | _ => True

instance (s : Node Origin) :
    (event : NodeEvent Origin) → Decidable (s.HandoffSound event)
  | .conclude lock answers _ _ => by
    unfold HandoffSound
    dsimp only
    split <;> infer_instance
  | .endOther _ | .finishRenewal _ _ _ _ _ => inferInstanceAs (Decidable (Admits _ _ _))
  | .endHold lock _ => by
    unfold HandoffSound
    dsimp only
    split <;> infer_instance
  | .setHead _ _ => inferInstanceAs (Decidable (_ ∨ _))
  | .record _ _ _ _ _ | .receiveEnd _ _ _ _ _ _ | .takeEnd _ | .takeRelease _ _
  | .takeLoss _ _ _ | .findHold _ | .readHead _ | .closeGate _ | .breakOthers _ _ _ _
  | .enter _ | .beginAttempt _ _ _ _ _ | .giveUp _ | .pollHead _ | .report _
  | .startRenewal _ _ | .renew _ _ _ _ _ | .sweep _ | .fence _ _ | .check _ _ _
  | .complete _ _ _ _ => isTrue trivial

/-! ## The invariant -/

/-- What holds of an awaited handoff. -/
structure Awaited
    (s : Node Origin) (lock : LockName) (carried marks unseen : List (Watermark Origin)) :
    Prop where
  covers : ∀ mark ∈ carried, mark.origin ≠ s.manager.origin →
    ∃ awaited ∈ marks, awaited.origin = mark.origin ∧ mark.seq ≤ awaited.seq
  polled : ∀ mark ∈ marks, mark ∈ unseen ∨ mark.seq ≤ s.headSeq mark.origin
  recorded : ∀ mark ∈ carried ++ s.tableMarks lock, s.Covered carried mark

structure HandoffInv (s : Node Origin) : Prop where
  awaited : ∀ (lock : LockName) id carried marks unseen,
    s.attempts[lock]? = some (.awaiting id false carried marks unseen) →
      s.Awaited lock carried marks unseen
  seen : HandoffSeen s.log

variable {s : Node Origin} {lock : LockName} {manager : Manager Origin}

/-- Once the poll has read every awaited watermark, nothing recorded is behind. -/
theorem Awaited.behind_eq_nil {carried marks : List (Watermark Origin)}
    (h : s.Awaited lock carried marks []) : s.behind lock carried = [] := by
  rw [behind, filter_eq_nil_iff]
  intro mark hmem
  have hreached : mark.seq ≤ s.headSeq mark.origin := by
    rcases h.recorded mark hmem with ⟨hother, carrier, hcarrier, hsame, hle⟩ | hreached
    · obtain ⟨awaited, hawaited, horigin, hle'⟩ :=
        h.covers carrier hcarrier (hsame ▸ hother)
      have hpolled := (h.polled awaited hawaited).resolve_left (not_mem_nil)
      rw [horigin, hsame] at hpolled
      exact UInt64.le_trans (UInt64.le_trans hle hle') hpolled
    · exact hreached
  simpa using UInt64.not_lt.mpr hreached

/-- A section that records only covered watermarks keeps the invariant. -/
theorem HandoffInv.advance_marks {added : List (Watermark Origin)} (hinv : s.HandoffInv)
    (horigin : manager.origin = s.manager.origin)
    (hmarks : MarksFrom (s.manager.marks lock) (manager.marks lock) added)
    (hothers : ∀ other, other ≠ lock → manager.marks other = s.manager.marks other)
    (hadmits : s.Admits lock added) : (s.advance lock manager).HandoffInv := by
  refine ⟨fun other id carried marks unseen hawaiting => ?_, fun other id behind hmem => ?_⟩
  · obtain ⟨covers, polled, recorded⟩ :=
      hinv.awaited other id carried marks unseen hawaiting
    have horigin : (s.advance lock manager).manager.origin = s.manager.origin := horigin
    have hcovered : ∀ mark, s.Covered carried mark →
        (s.advance lock manager).Covered carried mark := by
      intro mark h
      unfold Covered at h ⊢
      rw [horigin]
      exact h
    refine ⟨by rwa [horigin], polled, fun mark hmem => hcovered mark ?_⟩
    rcases mem_append.mp hmem with hmem | hmem
    · exact recorded mark (mem_append_left _ hmem)
    · obtain ⟨at', hmark⟩ := (mem_tableMarks_iff _ _ _).mp hmem
      have hmark : (manager.marks other)[mark.origin]? = some (mark.seq, at') := hmark
      by_cases hother : other = lock
      · subst hother
        rcases hmarks mark.origin _ hmark with hold | hadded
        · apply recorded mark (mem_append_right _ _)
          exact (mem_tableMarks_iff _ _ _).mpr ⟨at', hold⟩
        · have hattempt : s.attempts[other]? =
              some (.awaiting id false carried marks unseen) := hawaiting
          unfold Admits at hadmits
          rw [hattempt] at hadmits
          exact hadmits mark hadded
      · rw [hothers other hother] at hmark
        apply recorded mark (mem_append_right _ _)
        exact (mem_tableMarks_iff _ _ _).mpr ⟨at', hmark⟩
  · rcases mem_append.mp hmem with hmem | hmem
    · exact hinv.seen other id behind hmem
    · unfold endedHold at hmem
      split at hmem
      · cases hmem
      · split at hmem
        · cases hmem
        · cases mem_singleton.mp hmem

theorem HandoffInv.advance {own' : Option (Own Origin)} {added : List (Watermark Origin)}
    (hinv : s.HandoffInv) (heffect : s.manager.Effect manager lock own' added)
    (hadmits : s.Admits lock added) : (s.advance lock manager).HandoffInv :=
  hinv.advance_marks heffect.origin heffect.marks heffect.marks_other hadmits

theorem admits_nil (s : Node Origin) (lock : LockName) : s.Admits lock [] := by
  unfold Admits
  split
  · exact nofun
  · trivial

theorem Admits.mono {marks marks' : List (Watermark Origin)} (h : s.Admits lock marks)
    (hsub : ∀ mark ∈ marks', mark ∈ marks) : s.Admits lock marks' := by
  unfold Admits at h ⊢
  split at h
  · exact fun mark hmem => h mark (hsub mark hmem)
  · trivial

/-- The invariant reads the manager, the heads, the attempts and the log. -/
theorem HandoffInv.of_parts {t : Node Origin} (hinv : s.HandoffInv)
    (hmanager : t.manager = s.manager) (hheads : t.heads = s.heads)
    (hattempts : ∀ (lock : LockName) id carried marks unseen,
      t.attempts[lock]? = some (.awaiting id false carried marks unseen) →
        s.attempts[lock]? = some (.awaiting id false carried marks unseen))
    (hseen : HandoffSeen t.log) : t.HandoffInv := by
  refine ⟨fun lock id carried marks unseen h => ?_, hseen⟩
  obtain ⟨covers, polled, recorded⟩ :=
    hinv.awaited lock id carried marks unseen (hattempts lock id carried marks unseen h)
  refine ⟨?_, ?_, ?_⟩
  · rwa [hmanager]
  · simpa only [headSeq, hheads] using polled
  · simpa only [Covered, headSeq, tableMarks, hmanager, hheads] using recorded

/-- A change that neither sets an attempt nor logs an acquisition. -/
theorem HandoffInv.of_same {t : Node Origin} (hinv : s.HandoffInv)
    (hmanager : t.manager = s.manager) (hheads : t.heads = s.heads)
    (hattempts : t.attempts = s.attempts) (hlog : t.log = s.log) : t.HandoffInv :=
  hinv.of_parts hmanager hheads (fun _ _ _ _ _ h => hattempts ▸ h) (hlog ▸ hinv.seen)

theorem HandoffInv.dropAttempt (hinv : s.HandoffInv) (lock : LockName) :
    (s.dropAttempt lock).HandoffInv := by
  refine hinv.of_parts rfl rfl (fun other id carried marks unseen h => ?_) hinv.seen
  rw [dropAttempt_attempts] at h
  split at h
  · cases h
  · exact h

/-- An attempt that awaits what the invariant says of it. -/
theorem HandoffInv.setAttempt {attempt : Attempt Origin} (hinv : s.HandoffInv)
    (hawaited : ∀ id carried marks unseen,
      attempt = .awaiting id false carried marks unseen →
        s.Awaited lock carried marks unseen) : (s.setAttempt lock attempt).HandoffInv := by
  refine ⟨fun other id carried marks unseen h => ?_, hinv.seen⟩
  have hawaited' : s.Awaited other carried marks unseen := by
    rw [setAttempt_attempts] at h
    split at h
    · next hother =>
      rw [← hother]
      exact hawaited id carried marks unseen (Option.some.inj h)
    · exact hinv.awaited other id carried marks unseen h
  exact ⟨hawaited'.covers, hawaited'.polled, hawaited'.recorded⟩

theorem HandoffInv.happens {happening : Happening Origin} (hinv : s.HandoffInv)
    (hbehind : ∀ lock id behind, happening = .acquired lock id false behind → behind = []) :
    (s.happens happening).HandoffInv := by
  refine hinv.of_parts rfl rfl (fun _ _ _ _ _ h => h) fun lock id behind hmem => ?_
  rcases mem_append.mp hmem with hmem | hmem
  · exact hinv.seen lock id behind hmem
  · exact hbehind lock id behind (mem_singleton.mp hmem).symm

/-! ## Steps -/

section

variable (hinv : s.HandoffInv)
include hinv

theorem HandoffInv.conclude {claim : Claim Origin} {allowBehind : Bool}
    {answers : List (LockMessage Origin)} {deadline now : Instant}
    (hasking : s.attempts[lock]? = some (.asking claim allowBehind))
    (hcovered : allowBehind = false → ∀ mark ∈ s.tableMarks lock ++ answers.flatMap LockMessage.watermarks, s.Covered (answers.flatMap LockMessage.watermarks) mark) :
    (s.conclude lock claim allowBehind answers deadline now).HandoffInv := by
  obtain ⟨own', heffect, -⟩ :=
    s.manager.concludeAttempt_effect lock claim (gather answers) deadline now
  have hadmits : s.Admits lock (valuesOf (gather answers).watermarks) := by
    unfold Admits
    rw [hasking]
    trivial
  have hnext := hinv.advance heffect hadmits
  unfold Node.conclude
  dsimp only
  split
  · apply hnext.setAttempt
    rintro id carried marks unseen hattempt
    cases hattempt
    have horigin : (s.advance lock (s.manager.concludeAttempt lock claim (gather answers)
        deadline now).1).manager.origin = s.manager.origin := heffect.origin
    refine ⟨fun mark hmem hother => ?_, fun mark hmem => .inl ?_, fun mark hmem => ?_⟩
    · rw [horigin] at hother
      exact exists_handoff hmem hother
    · exact hmem
    · have hbefore : s.Covered (answers.flatMap LockMessage.watermarks) mark := by
        apply hcovered rfl
        rcases mem_append.mp hmem with hmem | hmem
        · exact mem_append_right _ hmem
        · obtain ⟨at', hmark⟩ := (mem_tableMarks_iff _ _ _).mp hmem
          rcases heffect.marks mark.origin _ hmark with hold | hadded
          · exact mem_append_left _ ((mem_tableMarks_iff _ _ _).mpr ⟨at', hold⟩)
          · exact mem_append_right _ (mem_carried_of_mem_gathered hadded)
      unfold Covered at hbefore ⊢
      rw [horigin]
      exact hbefore
  · exact hnext.dropAttempt lock

theorem HandoffInv.endHold {now : Instant} (hsound : s.HandoffSound (.endHold lock now))
    (hend : s.endHold lock now = some manager) : (s.advance lock manager).HandoffInv := by
  unfold HandoffSound at hsound
  unfold Node.endHold at hend
  split at hend
  · next hending =>
    cases hend
    simp only [hending] at hsound
    exact hinv.advance (Manager.endRelease_effect _ _ _ _ _) hsound
  · cases hend
    exact hinv.advance (Manager.lose_effect _ _ _ _ _) (s.admits_nil lock)
  · cases hend
    exact hinv.advance (Manager.endOwn_effect _ _ _ _ _) (s.admits_nil lock)
  · cases hend

theorem HandoffInv.sweep (now : Instant) :
    ({ s with manager := { s.manager with
        table := s.manager.table.sweep now } } : Node Origin).HandoffInv := by
  refine ⟨fun lock id carried marks unseen h => ?_, hinv.seen⟩
  obtain ⟨covers, polled, recorded⟩ := hinv.awaited lock id carried marks unseen h
  refine ⟨covers, polled, fun mark hmem => recorded mark ?_⟩
  rcases mem_append.mp hmem with hmem | hmem
  · exact mem_append_left _ hmem
  · obtain ⟨at', hmark⟩ := (mem_tableMarks_iff _ _ _).mp hmem
    have hbefore := (s.manager.table.sweep_own_and_watermarks now lock).2 _ _ hmark
    exact mem_append_right _ ((mem_tableMarks_iff _ _ _).mpr ⟨at', hbefore⟩)

/-- A head that goes up leaves reached what was reached. -/
theorem HandoffInv.setHead {origin : Origin} {seq : Option UInt64}
    (hsound : s.HandoffSound (.setHead origin seq)) :
    ({ s with heads := Function.update s.heads origin seq } : Node Origin).HandoffInv := by
  refine ⟨fun lock id carried marks unseen h => ?_, hinv.seen⟩
  have hrises : s.headSeq origin ≤ seq.getD 0 := by
    apply hsound.resolve_left
    intro hnone
    have hfalse := hnone _ (mem_valuesOf_iff.mpr ⟨lock, h⟩)
    cases hfalse
  have hhead : ∀ other, s.headSeq other ≤
      ({ s with heads := Function.update s.heads origin seq } : Node Origin).headSeq other := by
    intro other
    by_cases hother : other = origin
    · subst hother
      simpa [headSeq] using hrises
    · simp [headSeq, hother]
  obtain ⟨covers, polled, recorded⟩ := hinv.awaited lock id carried marks unseen h
  refine ⟨covers, fun mark hmem => ?_, fun mark hmem => ?_⟩
  · exact (polled mark hmem).imp_right fun hle => UInt64.le_trans hle (hhead mark.origin)
  · exact (recorded mark hmem).imp_right fun hle => UInt64.le_trans hle (hhead mark.origin)

theorem HandoffInv.step [ToString Origin] {next : Node Origin} {event : NodeEvent Origin}
    (hsound : s.HandoffSound event) (hstep : s.step event = some next) : next.HandoffInv := by
  cases event with
  | record writers lock claim renewal now =>
    cases hstep
    exact hinv.advance (Manager.record_effect _ _ _ _ _ _) (s.admits_nil lock)
  | receiveEnd writers lock id reason watermark now =>
    simp only [Node.step] at hstep
    split at hstep
    · cases hstep
      exact hinv.of_same rfl rfl rfl rfl
    · cases hstep
      exact hinv
  | endOther message =>
    obtain ⟨-, rfl⟩ := guard_eq_some hstep
    have hnext := hinv.advance (Manager.endOther_effect s.manager message.lock
      message.id message.reason message.watermark message.now)
      (Admits.mono hsound fun mark hmem => ?_)
    · exact hnext.of_same rfl rfl rfl rfl
    · obtain ⟨hmark, -⟩ := Option.filter_eq_some_iff.mp (Option.mem_toList.mp hmem)
      exact Option.mem_toList.mpr hmark
  | takeEnd message | takeRelease lock token | takeLoss lock id lost =>
    obtain ⟨-, rfl⟩ := guard_eq_some hstep
    exact hinv.of_same rfl rfl rfl rfl
  | findHold lock | readHead lock =>
    simp only [Node.step] at hstep
    split at hstep
    · cases hstep
      exact hinv.of_same rfl rfl rfl rfl
    · cases hstep
  | endHold lock now =>
    obtain ⟨ended, hended, rfl⟩ := Option.map_eq_some_iff.mp hstep
    exact (hinv.endHold hsound hended).of_same rfl rfl rfl rfl
  | closeGate lock =>
    simp only [Node.step] at hstep
    split at hstep
    · cases hstep
      exact hinv.of_same rfl rfl rfl rfl
    · cases hstep
      exact hinv.of_same rfl rfl rfl rfl
    · cases hstep
  | breakOthers lock holder answers now =>
    cases hstep
    exact hinv.advance (Manager.breakOthers_effect _ _ _ _ _) (s.admits_nil lock)
  | enter lock =>
    obtain ⟨-, rfl⟩ := guard_eq_some hstep
    exact hinv.setAttempt (by simp)
  | beginAttempt request allowBehind nonce now wall =>
    simp only [Node.step] at hstep
    split at hstep
    · cases hstep
      have hnext : (s.advance request.lock
          (s.manager.beginAttempt request nonce now wall).1).HandoffInv := by
        refine hinv.advance_marks rfl ?_ ?_ (s.admits_nil request.lock)
        · simp only [Manager.marks, Manager.beginAttempt, Table.entry_modify_self]
          exact MarksFrom.refl _ _
        · intro other hother
          simp only [Manager.marks, Manager.beginAttempt]
          rw [Table.entry_modify_of_ne _ hother.symm]
          rfl
      exact hnext.setAttempt (by simp)
    · cases hstep
  | giveUp lock =>
    simp only [Node.step] at hstep
    split at hstep
    · cases hstep
      exact (hinv.advance (Manager.dropAttempt_effect _ _ _) (s.admits_nil lock)).dropAttempt lock
    · cases hstep
      exact hinv.dropAttempt lock
    · cases hstep
  | conclude lock answers deadline now =>
    simp only [Node.step] at hstep
    split at hstep
    · next claim allowBehind hasking =>
      cases hstep
      refine hinv.conclude hasking fun hbehind => ?_
      subst hbehind
      simp only [HandoffSound, hasking] at hsound
      exact hsound
    · cases hstep
  | pollHead lock =>
    simp only [Node.step] at hstep
    split at hstep
    · next id allowBehind carried marks mark unseen hawaiting =>
      cases hstep
      apply hinv.setAttempt
      rintro id' carried' marks' unseen' hattempt
      cases hattempt
      obtain ⟨covers, polled, recorded⟩ := hinv.awaited lock _ _ _ _ hawaiting
      refine ⟨covers, fun other hmem => ?_, recorded⟩
      split
      · next hreached =>
        rcases polled other hmem with hunseen | hseen
        · rcases mem_cons.mp hunseen with rfl | hunseen
          · exact .inr hreached
          · exact .inl hunseen
        · exact .inr hseen
      · exact .inl hmem
    · cases hstep
  | report lock =>
    simp only [Node.step] at hstep
    split at hstep
    · next id allowBehind carried marks unseen hawaiting =>
      split at hstep
      · next hdone =>
        cases hstep
        apply (hinv.dropAttempt lock).happens
        rintro lock' id' behind' hacquired
        cases hacquired
        have hunseen : unseen = [] := by simpa using hdone
        subst hunseen
        exact (hinv.awaited lock id carried marks [] hawaiting).behind_eq_nil
      · cases hstep
    · cases hstep
  | startRenewal lock now =>
    obtain ⟨⟨started, claim⟩, hstarted, rfl⟩ := Option.map_eq_some_iff.mp hstep
    obtain ⟨own, own', -, -, -, -, hupdates⟩ := Manager.startRenewal_updates hstarted
    exact hinv.advance (hupdates.effect_own rfl rfl) (s.admits_nil lock)
  | finishRenewal lock claim answers sent now =>
    cases hstep
    obtain ⟨own', heffect, -⟩ :=
      s.manager.finishRenewal_effect lock claim (gather answers) sent now
    exact hinv.advance heffect
      (Admits.mono hsound fun mark hmem => mem_carried_of_mem_gathered hmem)
  | renew lock token ttl payload now =>
    obtain ⟨renewed, hrenewed, rfl⟩ := Option.map_eq_some_iff.mp hstep
    obtain ⟨own, own', -, -, -, hupdates⟩ := Manager.renew_updates hrenewed
    exact hinv.advance (hupdates.effect_own rfl rfl) (s.admits_nil lock)
  | sweep now =>
    cases hstep
    exact hinv.sweep now
  | setHead origin seq =>
    cases hstep
    exact hinv.setHead hsound
  | fence lock token =>
    obtain ⟨-, rfl⟩ := guard_eq_some hstep
    exact hinv.of_same rfl rfl rfl rfl
  | check lock token now =>
    simp only [Node.step] at hstep
    split at hstep
    · split at hstep
      · cases hstep
        exact HandoffInv.happens (hinv.of_same rfl rfl rfl rfl) (by simp)
      · cases hstep
        exact hinv.of_same rfl rfl rfl rfl
    · cases hstep
  | complete lock token limit now =>
    obtain ⟨-, rfl⟩ := guard_eq_some hstep
    exact HandoffInv.happens (hinv.of_same rfl rfl rfl rfl) (by simp)

end

theorem fresh_handoffInv (origin : Origin) (heads : Origin → Option UInt64) :
    (fresh origin heads).HandoffInv := by
  refine ⟨fun lock id carried marks unseen h => ?_, by simp [fresh, HandoffSeen]⟩
  simp [fresh] at h

end Node

/-- In every run whose steps are sound, an acquire that may not be behind reports its
lock acquired only with every watermark recorded for it reached. -/
theorem handoff_seen_of_sound_run [ToString Origin]
    (origin : Origin) (heads : Origin → Option UInt64) (events : List (NodeEvent Origin))
    (s : Node Origin)
    (hsound : RunMeets Node.step Node.HandoffSound (.fresh origin heads) events)
    (hrun : run Node.step (.fresh origin heads) events = some s) :
    HandoffSeen s.log :=
  (run_invariant_of_meets Node.HandoffInv
    (fun _ _ _ hinv hguard hstep => hinv.step hguard hstep)
    (Node.fresh_handoffInv origin heads) hsound hrun).seen

private def handoffLock : LockName := ⟨"s", "l"⟩

/-- The release that origin 1 sends, with a watermark. -/
private def handoffEnd : PeerEnd Nat :=
  ⟨handoffLock, ⟨⟨1, 1⟩, 0⟩, .released, some ⟨1, 7⟩, 0, false⟩

/-- A release of another node is received, then this node takes the lock. -/
private def handoffEvents (answers : List (LockMessage Nat)) : List (NodeEvent Nat) :=
  [.receiveEnd [1] handoffLock ⟨⟨1, 1⟩, 0⟩ .released (some ⟨1, 7⟩) 0,
    .endOther handoffEnd, .enter handoffLock,
    .beginAttempt
      { lock := handoffLock, ttl := 30000000000, owner := "", payload := [],
        mode := .lease } false 7 0 0,
    .conclude handoffLock answers 30000000000 1]

/-- A peer answers with the watermark, and the node waits for the head. -/
theorem handoff_waits_for_answered_mark :
    ∃ s, run Node.step (.fresh 0 fun _ => some 5)
        (handoffEvents [.answer [] [] [⟨1, 7⟩]] ++
          [.pollHead handoffLock, .setHead 1 (some 7), .pollHead handoffLock,
            .report handoffLock]) = some s ∧
      s.log = [.acquired handoffLock ⟨⟨2, 0⟩, 7⟩ false []] ∧ HandoffSeen s.log := by
  refine ⟨_, rfl, by decide, ?_⟩
  exact handoff_seen_of_sound_run 0 (fun _ => some 5)
    (handoffEvents [.answer [] [] [⟨1, 7⟩]] ++
      [.pollHead handoffLock, .setHead 1 (some 7), .pollHead handoffLock,
        .report handoffLock]) _ (by decide) rfl

/-- No peer answers, and the node reports the lock acquired while its own table holds a
watermark that its head has not reached. -/
theorem acquired_behind_own_table :
    ∃ s, run Node.step (.fresh 0 fun _ => some 5)
        (handoffEvents [] ++ [.report handoffLock]) = some s ∧
      s.log = [.acquired handoffLock ⟨⟨2, 0⟩, 7⟩ false [⟨1, 7⟩]] ∧ ¬HandoffSeen s.log := by
  refine ⟨_, rfl, by decide, fun h => ?_⟩
  have hnil := h handoffLock ⟨⟨2, 0⟩, 7⟩ [⟨1, 7⟩] (by decide)
  cases hnil

end Synch.Locks
