import Synch.Support.Run
import Synch.Uploads.Store

/-!
# Completions of one upload

Any number of callers complete an upload, each on its own time: a completion that has
latched the upload assembles the parts it chose, and then finishes, fails, or goes
away.  Meanwhile parts are recorded, the upload is aborted or swept, and the daemon is
restarted.

A completion whose latch was taken over can still finish or fail, which ends the latch
of its successor.  In every run where only the completion that took the latch last
finishes or fails, nobody else touches the parts under it and the recorded answer stays.
-/

namespace Synch.Uploads

open List Synch.Support

/-! ## The system -/

/-- A completion that took the latch: what it was asked for, and the parts it read. -/
structure Completion where
  id : Nat
  wanted : List (Nat × Option Hash)
  available : List UploadPart
deriving DecidableEq, Repr

/-- The rows and the completions in flight, with the completion that took the latch last
and whether it has ended. -/
structure World where
  rows : Rows
  running : List Completion
  next : Nat
  last : Option Completion
  ended : Bool
deriving DecidableEq, Repr

inductive Event where
  /-- A part whose payload is durable is recorded. -/
  | record (part : UploadPart)
  /-- A caller asks for the upload to be completed. -/
  | begin (space path : String) (principal : Option String)
      (wanted : List (Nat × Option Hash)) (nowNs : Int)
  /-- A completion has assembled its parts and finishes. -/
  | finish (id : Nat) (nowNs : Int)
  /-- A completion is refused or breaks off, and opens the upload again. -/
  | fail (id : Nat)
  /-- The caller of a completion goes away. -/
  | vanish (id : Nat)
  | abort (space path : String) (principal : Option String)
  | sweep (cutoffNs : Int)
  /-- The daemon stops, which severs every completion, and starts again. -/
  | restart
deriving DecidableEq, Repr

/-- The upload is against the key that the caller named, and the caller's own. -/
def uploadFor (rows : Rows) (space path : String) (principal : Option String) : Bool :=
  rows.upload.any fun upload =>
    upload.space = space ∧ upload.path = path ∧ upload.principal = principal

/-- The bytes that parts hold. -/
def totalSize (parts : List UploadPart) : Nat :=
  (parts.map UploadPart.size).sum

section System

-- the id of the upload, the age at which a latch is taken over, and the root of the
-- object that parts make
variable (id : String) (latchTimeoutNs : Int) (rootOf : List UploadPart → Hash)

namespace World

/-- The completion no longer runs. -/
def ends (world : World) (id : Nat) (rows : Rows) : World :=
  { world with
    rows := rows
    running := world.running.filter fun completion => completion.id ≠ id
    ended := world.ended || world.last.any fun last => last.id = id }

end World

def step (world : World) : Event → Option World
  | .record part =>
    match recordPart id world.rows part with
    | .ok (rows, _) => some { world with rows := rows }
    | .error _ => some world
  | .begin space path principal wanted nowNs =>
    if !uploadFor world.rows space path principal then some world
    else
      match beginComplete id world.rows nowNs latchTimeoutNs with
      | .error _ => some world
      | .ok (rows, .alreadyCompleted _ _) => some { world with rows := rows }
      | .ok (rows, .ready _ _ parts) =>
        let completion :=
          { id := world.next, wanted := wanted, available := parts : Completion }
        some
          { rows := rows
            running := completion :: world.running
            next := world.next + 1
            last := some completion
            ended := false }
  | .finish id nowNs => do
    let completion ← world.running.find? fun completion => completion.id = id
    let chosen ← (chooseParts completion.wanted completion.available).toOption
    some (world.ends id (finishComplete world.rows (rootOf chosen) (totalSize chosen) nowNs))
  | .fail id => do
    let _ ← world.running.find? fun completion => completion.id = id
    some (world.ends id (reopenUpload world.rows))
  | .vanish id =>
    some
      { world with
        running := world.running.filter fun completion => completion.id ≠ id }
  | .abort space path principal =>
    if !uploadFor world.rows space path principal then some world
    else
      match abortUpload id world.rows with
      | .ok (rows, _) => some { world with rows := rows }
      | .error _ => some world
  | .sweep cutoffNs =>
    if world.rows.upload.any fun upload => isBefore upload cutoffNs then
      some { world with rows := (expireUpload world.rows).1 }
    else some world
  | .restart =>
    some
      { world with
        rows := reopenInterruptedUploads world.rows
        running := []
        ended := true }

end System

def created (space path : String) (principal : Option String) (nowNs : Int) : World where
  rows := createUpload space path principal nowNs
  running := []
  next := 0
  last := none
  ended := true

/-! ## What is promised -/

/-- Nobody but the completion that took the latch last, when it finishes, touches the parts
while it has not ended. -/
def Undisturbed (world : World) (event : Event) (after : World) : Prop :=
  ∀ completion, world.last = some completion → world.ended = false →
    (∀ nowNs, event ≠ .finish completion.id nowNs) → after.rows.parts = world.rows.parts

/-- A recorded answer is the root of the parts chosen by the completion that took the latch
last. -/
def AnswerOfLast (rootOf : List UploadPart → Hash) (world : World) : Prop :=
  ∀ upload, world.rows.upload = some upload → upload.state = .completed →
    ∃ completion chosen, world.last = some completion ∧
      chooseParts completion.wanted completion.available = .ok chosen ∧
        upload.etag = some (rootOf chosen) ∧ upload.size = some (totalSize chosen)

/-- Where the upload was completed it still is, with the same answer, if it is there. -/
def AnswerKept (world after : World) : Prop :=
  ∀ upload, world.rows.upload = some upload → upload.state = .completed →
    ∀ upload', after.rows.upload = some upload' →
      upload'.state = .completed ∧ upload'.etag = upload.etag ∧ upload'.size = upload.size

/-- Only the completion that took the latch last finishes or fails. -/
def ByLast (world : World) : Event → Prop
  | .finish id _ => world.last.map Completion.id = some id
  | .fail id => world.last.map Completion.id = some id
  | _ => True

instance (world : World) : ∀ event, Decidable (ByLast world event)
  | .finish id _ => inferInstanceAs (Decidable (world.last.map Completion.id = some id))
  | .fail id => inferInstanceAs (Decidable (world.last.map Completion.id = some id))
  | .record .. | .begin .. | .vanish .. | .abort .. | .sweep .. | .restart => isTrue trivial

/-! ## What a step can do -/

section Moves

variable {id : String} {latchTimeoutNs : Int} {rootOf : List UploadPart → Hash}

/-- The effects a step can have. -/
inductive Move (rootOf : List UploadPart → Hash) (world : World) : Event → World → Prop
  | idle {event : Event} : Move rootOf world event world
  | vanish {gone : Nat} :
      Move rootOf world (.vanish gone)
        { world with running := world.running.filter fun completion => completion.id ≠ gone }
  | record {part : UploadPart} {upload : Upload} {parts : List UploadPart}
      (hupload : world.rows.upload = some upload) (hstate : upload.state = .opened) :
      Move rootOf world (.record part) { world with rows := { world.rows with parts := parts } }
  | latch {space path : String} {principal : Option String}
      {wanted : List (Nat × Option Hash)} {nowNs : Int} {upload : Upload}
      {completion : Completion}
      (hupload : world.rows.upload = some upload) (hstate : upload.state ≠ .completed)
      (hid : completion.id = world.next) :
      Move rootOf world (.begin space path principal wanted nowNs)
        { rows :=
            { world.rows with
              upload := some { upload with state := .completing, latchedNs := some nowNs } }
          running := completion :: world.running
          next := world.next + 1
          last := some completion
          ended := false }
  | finish {completion : Completion} {chosen : List UploadPart} {nowNs : Int}
      (hrunning : completion ∈ world.running)
      (hchosen : chooseParts completion.wanted completion.available = .ok chosen) :
      Move rootOf world (.finish completion.id nowNs)
        (world.ends completion.id
          (finishComplete world.rows (rootOf chosen) (totalSize chosen) nowNs))
  | fail {completion : Completion} (hrunning : completion ∈ world.running) :
      Move rootOf world (.fail completion.id) (world.ends completion.id (reopenUpload world.rows))
  | drop {event : Event} {upload : Upload}
      (hupload : world.rows.upload = some upload) (hstate : upload.state ≠ .completing)
      (hevent : ∀ ended nowNs, event ≠ .finish ended nowNs) :
      Move rootOf world event { world with rows := { upload := none, parts := [] } }
  | restart :
      Move rootOf world .restart
        { world with
          rows := reopenInterruptedUploads world.rows
          running := []
          ended := true }

variable {world after : World}

theorem move_of_record {part : UploadPart}
    (h : step id latchTimeoutNs rootOf world (.record part) = some after) :
    Move rootOf world (.record part) after := by
  obtain ⟨⟨upload, parts⟩, running, next, last, ended⟩ := world
  cases upload with
  | none => exact Option.some.inj h ▸ .idle
  | some upload =>
    simp only [step, recordPart] at h
    by_cases hstate : upload.state = .opened
    · simp only [hstate, if_true, Option.some.injEq] at h
      exact h ▸ .record rfl hstate
    · simp only [hstate, if_false, Option.some.injEq] at h
      exact h ▸ .idle

theorem move_of_begin {space path : String} {principal : Option String}
    {wanted : List (Nat × Option Hash)} {nowNs : Int}
    (h : step id latchTimeoutNs rootOf world (.begin space path principal wanted nowNs) =
      some after) : Move rootOf world (.begin space path principal wanted nowNs) after := by
  obtain ⟨⟨upload, parts⟩, running, next, last, ended⟩ := world
  simp only [step] at h
  split at h
  · exact Option.some.inj h ▸ .idle
  · cases upload with
    | none => exact Option.some.inj h ▸ .idle
    | some upload =>
      simp only [beginComplete] at h
      cases hstate : upload.state with
      | opened =>
        simp only [hstate, Option.some.injEq] at h
        exact h ▸ .latch rfl (by simp [hstate]) rfl
      | completing =>
        simp only [hstate] at h
        by_cases hlatched : (upload.latchedNs.any fun latchedNs =>
            saturatingSub nowNs latchedNs < latchTimeoutNs) = true
        · simp only [hlatched, if_true, Option.some.injEq] at h
          exact h ▸ .idle
        · simp only [hlatched, Bool.false_eq_true, if_false, Option.some.injEq] at h
          exact h ▸ .latch rfl (by simp [hstate]) rfl
      | completed =>
        simp only [hstate] at h
        cases hetag : upload.etag with
        | none =>
          simp only [hetag, Option.some.injEq] at h
          exact h ▸ .idle
        | some etag =>
          simp only [hetag, Option.some.injEq] at h
          exact h ▸ .idle

theorem move_of_abort {space path : String} {principal : Option String}
    (h : step id latchTimeoutNs rootOf world (.abort space path principal) = some after) :
    Move rootOf world (.abort space path principal) after := by
  obtain ⟨⟨upload, parts⟩, running, next, last, ended⟩ := world
  simp only [step] at h
  split at h
  · exact Option.some.inj h ▸ .idle
  · cases upload with
    | none => exact Option.some.inj h ▸ .idle
    | some upload =>
      simp only [abortUpload] at h
      cases hstate : upload.state with
      | opened =>
        simp only [hstate, Option.some.injEq] at h
        exact h ▸ .drop rfl (by simp [hstate]) (by simp)
      | completing =>
        simp only [hstate, Option.some.injEq] at h
        exact h ▸ .idle
      | completed =>
        simp only [hstate, Option.some.injEq] at h
        exact h ▸ .idle

theorem move_of_sweep {cutoffNs : Int}
    (h : step id latchTimeoutNs rootOf world (.sweep cutoffNs) = some after) :
    Move rootOf world (.sweep cutoffNs) after := by
  obtain ⟨⟨upload, parts⟩, running, next, last, ended⟩ := world
  simp only [step] at h
  split at h
  · cases upload with
    | none => exact Option.some.inj h ▸ .idle
    | some upload =>
      simp only [expireUpload] at h
      by_cases hstate : upload.state = .completing
      · simp only [hstate, if_true, Option.some.injEq] at h
        exact h ▸ .idle
      · simp only [hstate, if_false, Option.some.injEq] at h
        exact h ▸ .drop rfl hstate (by simp)
  · exact Option.some.inj h ▸ .idle

theorem move_of_step {event : Event} (h : step id latchTimeoutNs rootOf world event = some after) :
    Move rootOf world event after := by
  cases event with
  | record part => exact move_of_record h
  | begin space path principal wanted nowNs => exact move_of_begin h
  | finish ended nowNs =>
    simp only [step, Option.bind_eq_bind, Option.bind_eq_some_iff, Option.some.injEq] at h
    obtain ⟨completion, hfind, chosen, hchosen, rfl⟩ := h
    obtain rfl : completion.id = ended := by simpa using find?_some hfind
    have hok : chooseParts completion.wanted completion.available = .ok chosen := by
      cases hparts : chooseParts completion.wanted completion.available with
      | error message => simp [hparts, Except.toOption] at hchosen
      | ok parts =>
        rw [hparts] at hchosen
        rw [Option.some.inj hchosen]
    exact .finish (mem_of_find?_eq_some hfind) hok
  | fail ended =>
    simp only [step, Option.bind_eq_bind, Option.bind_eq_some_iff, Option.some.injEq] at h
    obtain ⟨completion, hfind, rfl⟩ := h
    obtain rfl : completion.id = ended := by simpa using find?_some hfind
    exact .fail (mem_of_find?_eq_some hfind)
  | vanish gone => exact Option.some.inj h ▸ .vanish
  | abort space path principal => exact move_of_abort h
  | sweep cutoffNs => exact move_of_sweep h
  | restart => exact Option.some.inj h ▸ .restart

end Moves

/-! ## The invariant -/

section Invariant

variable {id : String} {latchTimeoutNs : Int} {rootOf : List UploadPart → Hash}

/-- The upload is latched while the completion that took the latch last has not ended, and
a recorded answer is that completion's.  Completions have ids of their own. -/
structure Consistent (rootOf : List UploadPart → Hash) (world : World) : Prop where
  latched : ∀ completion, world.last = some completion → world.ended = false →
    ∃ upload, world.rows.upload = some upload ∧ upload.state = .completing
  answer : AnswerOfLast rootOf world
  below : ∀ completion ∈ world.running, completion.id < world.next
  running : ∀ completion last, completion ∈ world.running → world.last = some last →
    last.id = completion.id → last = completion ∧ world.ended = false

theorem consistent_created (space path : String) (principal : Option String) (nowNs : Int) :
    Consistent rootOf (created space path principal nowNs) where
  latched := by simp [created]
  answer := by
    intro upload hupload hstate
    cases hupload
    cases hstate
  below := by simp [created]
  running := by simp [created]

variable {world after : World} {completion : Completion} {event : Event}

theorem mem_running_ends {ended : Nat} {rows : Rows}
    (h : completion ∈ (world.ends ended rows).running) :
    completion ∈ world.running ∧ completion.id ≠ ended := by
  simpa [World.ends] using h

section

variable (h : Consistent rootOf world)
include h

/-- The completion that took the latch last ends. -/
theorem Consistent.ends {rows : Rows} (hlast : world.last = some completion)
    (hanswer : AnswerOfLast rootOf (world.ends completion.id rows)) :
    Consistent rootOf (world.ends completion.id rows) where
  latched := by
    intro _ _ hnot
    simp [World.ends, hlast] at hnot
  answer := hanswer
  below other hother := h.below other (mem_running_ends hother).1
  running := by
    intro other last hother hother' hid
    have heq : some completion = some last := hlast.symm.trans hother'
    cases heq
    exact absurd hid.symm (mem_running_ends hother).2

/-- The completion that took the latch last, where the guard lets one end, is the one
that ends, and the upload is latched. -/
theorem Consistent.last_of_guard (hrunning : completion ∈ world.running)
    (hguard : world.last.map Completion.id = some completion.id) :
    world.last = some completion ∧
      ∃ upload, world.rows.upload = some upload ∧ upload.state = .completing := by
  obtain ⟨last, hlast, hsame⟩ := Option.map_eq_some_iff.mp hguard
  obtain ⟨rfl, hended⟩ := h.running completion last hrunning hlast hsame
  exact ⟨hlast, h.latched last hlast hended⟩

/-- Under the guard, a step keeps the system consistent. -/
theorem Consistent.move (hguard : ByLast world event) (hmove : Move rootOf world event after) :
    Consistent rootOf after := by
  cases hmove with
  | idle => exact h
  | vanish =>
    refine ⟨h.latched, h.answer, fun completion hin => ?_, fun completion last hin => ?_⟩
    · exact h.below completion (mem_of_mem_filter hin)
    · exact h.running completion last (mem_of_mem_filter hin)
  | record hupload hstate => exact ⟨h.latched, h.answer, h.below, h.running⟩
  | @latch space path principal wanted nowNs upload completion hupload hstate hid =>
    refine ⟨fun _ _ _ => ⟨_, rfl, rfl⟩, ?_, ?_, ?_⟩
    · intro other hother hcompleted
      cases hother
      cases hcompleted
    · intro other hother
      obtain rfl | hold := mem_cons.mp hother
      · exact hid ▸ Nat.lt_succ_self _
      · exact (h.below other hold).trans (Nat.lt_succ_self _)
    · intro other last hother hlast hsame
      cases hlast
      obtain rfl | hold := mem_cons.mp hother
      · exact ⟨rfl, rfl⟩
      · exact absurd (h.below other hold) (by omega)
  | @finish completion chosen nowNs hrunning hchosen =>
    obtain ⟨hlast, -⟩ := h.last_of_guard hrunning hguard
    apply h.ends hlast
    intro other hother _
    obtain ⟨upload, -, rfl⟩ := Option.map_eq_some_iff.mp hother
    exact ⟨completion, chosen, hlast, hchosen, rfl, rfl⟩
  | @fail completion hrunning =>
    obtain ⟨hlast, upload, hupload, hstate⟩ := h.last_of_guard hrunning hguard
    apply h.ends hlast
    intro other hother hcompleted
    simp only [World.ends, reopenUpload, hupload, Option.map_some, hstate, if_true,
      Option.some.injEq] at hother
    rw [← hother] at hcompleted
    cases hcompleted
  | @drop _ upload hupload hstate hevent =>
    refine ⟨?_, ?_, h.below, h.running⟩
    · intro completion hlast hended
      obtain ⟨other, hother, hcompleting⟩ := h.latched completion hlast hended
      rw [hupload, Option.some.injEq] at hother
      exact absurd (hother ▸ hcompleting) hstate
    · intro other hother
      cases hother
  | restart =>
    refine ⟨by simp, ?_, by simp, by simp⟩
    intro other hother hcompleted
    obtain ⟨upload, hupload, rfl⟩ := Option.map_eq_some_iff.mp hother
    by_cases hstate : upload.state = .completing
    · simp [hstate] at hcompleted
    · rw [if_neg hstate] at hcompleted ⊢
      exact h.answer upload hupload hcompleted

/-- Under the guard, a step leaves the parts to the completion that took the latch last. -/
theorem Consistent.undisturbed (hguard : ByLast world event)
    (hmove : Move rootOf world event after) : Undisturbed world event after := by
  intro completion hlast hended hother
  obtain ⟨upload, hupload, hstate⟩ := h.latched completion hlast hended
  cases hmove with
  | idle => rfl
  | vanish => rfl
  | record hupload' hopened =>
    rw [hupload, Option.some.injEq] at hupload'
    rw [← hupload', hstate] at hopened
    cases hopened
  | latch => rfl
  | @finish completion' chosen nowNs hrunning hchosen =>
    obtain ⟨hlast', -⟩ := h.last_of_guard hrunning hguard
    rw [hlast, Option.some.injEq] at hlast'
    exact absurd (by rw [hlast']) (hother nowNs)
  | fail => rfl
  | drop hupload' hnot =>
    rw [hupload, Option.some.injEq] at hupload'
    exact absurd (hupload' ▸ hstate) hnot
  | restart => rfl

end

def Answers (etag : Option Hash) (size : Option Nat) (world : World) : Prop :=
  ∀ upload, world.rows.upload = some upload →
    upload.state = .completed ∧ upload.etag = etag ∧ upload.size = size

/-- Under the guard, a step keeps the answer. -/
theorem Consistent.answers {etag : Option Hash} {size : Option Nat} (h : Consistent rootOf world)
    (hguard : ByLast world event) (hmove : Move rootOf world event after)
    (hanswers : Answers etag size world) : Answers etag size after := by
  have hlatched : ∀ {completion}, completion ∈ world.running →
      world.last.map Completion.id = some completion.id → False := by
    intro completion hrunning hguard
    obtain ⟨-, upload, hupload, hstate⟩ := h.last_of_guard hrunning hguard
    have hcompleted := (hanswers upload hupload).1
    rw [hstate] at hcompleted
    cases hcompleted
  cases hmove with
  | idle => exact hanswers
  | vanish => exact hanswers
  | record hupload hstate => exact hanswers
  | latch hupload hstate => exact absurd (hanswers _ hupload).1 hstate
  | finish hrunning => exact (hlatched hrunning hguard).elim
  | fail hrunning => exact (hlatched hrunning hguard).elim
  | drop =>
    intro upload hupload
    cases hupload
  | restart =>
    intro upload hupload
    obtain ⟨upload', hupload', rfl⟩ := Option.map_eq_some_iff.mp hupload
    have hold := hanswers upload' hupload'
    rw [if_neg (by simp [hold.1])]
    exact hold

end Invariant

/-! ## Every run -/

section Runs

variable {id : String} {latchTimeoutNs : Int} {rootOf : List UploadPart → Hash}

/-- In every run where only the completion that took the latch last finishes or fails, the
parts are left to it until it ends, a recorded answer is the root of the parts it chose,
and the answer stays. -/
theorem completion_undisturbed
    {space path : String} {principal : Option String} {nowNs : Int}
    {events : List Event} {world : World}
    (hmeets : RunMeets (step id latchTimeoutNs rootOf) ByLast
      (created space path principal nowNs) events)
    (hrun : run (step id latchTimeoutNs rootOf) (created space path principal nowNs) events =
      some world) :
    AnswerOfLast rootOf world ∧
      (∀ event after, ByLast world event →
        step id latchTimeoutNs rootOf world event = some after → Undisturbed world event after) ∧
        ∀ later after, RunMeets (step id latchTimeoutNs rootOf) ByLast world later →
          run (step id latchTimeoutNs rootOf) world later = some after →
            AnswerKept world after := by
  have hconsistent : Consistent rootOf world := by
    refine run_invariant_of_meets (Consistent rootOf) ?_ (consistent_created ..) hmeets hrun
    intro world event next hinv hguard hstep
    exact hinv.move hguard (move_of_step hstep)
  refine ⟨hconsistent.answer, ?_, ?_⟩
  · intro event after hguard hstep
    exact hconsistent.undisturbed hguard (move_of_step hstep)
  · intro later after hmeets hrun upload hupload hstate
    have hstart : Consistent rootOf world ∧ Answers upload.etag upload.size world := by
      refine ⟨hconsistent, fun other hother => ?_⟩
      rw [hupload, Option.some.injEq] at hother
      exact hother ▸ ⟨hstate, rfl, rfl⟩
    have hend := run_invariant_of_meets
      (fun world => Consistent rootOf world ∧ Answers upload.etag upload.size world)
      (fun world event next hinv hguard hstep =>
        ⟨hinv.1.move hguard (move_of_step hstep),
          hinv.1.answers hguard (move_of_step hstep) hinv.2⟩)
      hstart hmeets hrun
    exact hend.2

end Runs

def smallPart (number : Nat) : UploadPart where
  number := number
  file := "part"
  size := minPartSize
  root := Hash.ofNat number
  createdNs := 0

/-- An hour, at which a latch is taken over. -/
def latchTimeout : Int := 3600 * 10 ^ 9

/-- An upload, and roots that tell the number of parts. -/
def exampleStep : World → Event → Option World :=
  step "u" latchTimeout fun parts => Hash.ofNat parts.length

def exampleUpload : World :=
  created "media" "a.bin" none 0

/-- The caller names the parts with these numbers. -/
def beginWith (numbers : List Nat) (nowNs : Int) : Event :=
  .begin "media" "a.bin" none (numbers.map fun number => (number, none)) nowNs

theorem completion_undisturbed_once :
    let events := [.record (smallPart 1), beginWith [1] 0, .finish 0 1]
    ∃ world, run exampleStep exampleUpload events = some world ∧
      AnswerOfLast (fun parts => Hash.ofNat parts.length) world := by
  refine ⟨_, rfl, ?_⟩
  exact (completion_undisturbed (by decide +kernel : RunMeets exampleStep ByLast exampleUpload
    [.record (smallPart 1), beginWith [1] 0, .finish 0 1]) rfl).1

/-- A completion is taken over after an hour and then fails.  This opens the upload under
its successor, and a part is recorded while the successor assembles.  In the other run both
finish, and the late answer of the first replaces that of the second. -/
theorem overtaken_completion_disturbs :
    (∃ world after,
      run exampleStep exampleUpload
          [.record (smallPart 1), beginWith [1] 0, beginWith [1] latchTimeout, .fail 0] =
            some world ∧
        exampleStep world (.record (smallPart 2)) = some after ∧
          ¬Undisturbed world (.record (smallPart 2)) after) ∧
      ∃ world after,
        run exampleStep exampleUpload
            [.record (smallPart 1), .record (smallPart 2), beginWith [1] 0,
              beginWith [1, 2] latchTimeout, .finish 1 latchTimeout] = some world ∧
          exampleStep world (.finish 0 latchTimeout) = some after ∧ ¬AnswerKept world after := by
  constructor
  · refine ⟨_, _, rfl, rfl, fun hundisturbed => ?_⟩
    have hparts := hundisturbed _ rfl rfl (by simp)
    revert hparts
    decide +kernel
  · refine ⟨_, _, rfl, rfl, fun hkept => ?_⟩
    have hanswer := (hkept _ rfl rfl _ rfl).2.1
    revert hanswer
    decide +kernel

end Synch.Uploads
