import Synch.Locks.Claim
import Synch.Support.Maps

/-!
# The pure rules of the lock exchange

What a set of answers says about one lock, the decision a claimant takes from
it, and the heal a holder applies when a renewal meets another held claim.
The ordered maps of the source are `Std.TreeMap`s.
-/

namespace Synch.Locks

open Std (TreeMap)
open Synch.Support

variable {Origin : Type} [LinearOrder Origin]

/-- Every claim reported for a lock, with the strongest state it was given. -/
abbrev Known (Origin : Type) [LinearOrder Origin] :=
  TreeMap (ClaimId Origin) (Claim Origin × ClaimState)

/-- Everything a set of answers says about one lock. -/
structure Gathered (Origin : Type) [LinearOrder Origin] where
  known : Known Origin := ∅
  ended : TreeMap (ClaimId Origin) EndReason := ∅
  watermarks : TreeMap Origin (Watermark Origin) := ∅

namespace Gathered

/-- Record a claim; held outranks live outranks expired. -/
def note
    (gathered : Gathered Origin) (claim : Claim Origin) (state : ClaimState) :
    Gathered Origin :=
  let slot := gathered.known.getD claim.id (claim, state)
  { gathered with
    known := gathered.known.insert claim.id (if slot.2 < state then (claim, state) else slot) }

def mark (gathered : Gathered Origin) (mark : Watermark Origin) : Gathered Origin :=
  let slot := gathered.watermarks.getD mark.origin mark
  { gathered with
    watermarks := gathered.watermarks.insert mark.origin
      (if slot.seq < mark.seq then mark else slot) }

def noteEnd
    (gathered : Gathered Origin) (ended : ClaimId Origin × EndReason) :
    Gathered Origin :=
  { gathered with ended := gathered.ended.insert ended.1 ended.2 }

def add
    (gathered : Gathered Origin) (reports : List (Report Origin))
    (ended : List (ClaimId Origin × EndReason))
    (marks : List (Watermark Origin)) : Gathered Origin :=
  let noted := reports.foldl (fun g report => g.note report.claim report.state) gathered
  let withEnds := ended.foldl noteEnd noted
  marks.foldl mark withEnds

def tickets (gathered : Gathered Origin) : List UInt64 :=
  (gathered.known.keys ++ gathered.ended.keys).map fun id => id.ticket.lamport

end Gathered

/-- What a claimant does once its answers are in. -/
inductive Verdict (Origin : Type) where
  | hold (supersedes : List (ClaimId Origin))
  | yield (winner : Option (Claim Origin × Bool)) (reclaim : Bool)
deriving DecidableEq, Repr

variable (mine : ClaimId Origin)

def isRival (ended : TreeMap (ClaimId Origin) EndReason) (id : ClaimId Origin) : Bool :=
  !ended.contains id && id != mine

/-- Whether a reported state of `id` stands in the way of `mine`. -/
def blocks (mine id : ClaimId Origin) (state : ClaimState) : Bool :=
  state == .held || (state == .live && decide (id < mine))

/-- The claim a loser is told about: the first held one, else the first. -/
def nextBlocker (blocker : Option (Claim Origin × Bool))
    (entry : ClaimId Origin × Claim Origin × ClaimState) :
    Option (Claim Origin × Bool) :=
  let held := entry.2.2 == .held
  if blocks mine entry.1 entry.2.2 &&
      blocker.all (fun previous => held && !previous.2) then
    some (entry.2.1, held)
  else
    blocker

/-- A predecessor hold above this ticket, from another origin. -/
def predecessorAbove (ended : TreeMap (ClaimId Origin) EndReason) : Bool :=
  ended.toList.any fun entry =>
    decide (mine < entry.1) && entry.1.ticket.origin != mine.ticket.origin && entry.2 != .withdrawn

/-- Hold iff this ticket is the least live claim known and none is held. -/
def decideClaim (known : Known Origin)
    (ended : TreeMap (ClaimId Origin) EndReason) : Verdict Origin :=
  if predecessorAbove mine ended then
    .yield none true
  else
    let rivals := known.toList.filter fun entry => isRival mine ended entry.1
    match rivals.foldl (nextBlocker mine) none with
    | some winner => .yield (some winner) false
    | none =>
      .hold (((rivals.filter fun entry => entry.2.2 == .expired).map
        Prod.fst).take maxLockSupersedes)

/-- Whether a renewal's answers say the holder of `mine` lost. -/
def heal (mine : Claim Origin) (gathered : Gathered Origin) : Option (Lost Origin) :=
  match gathered.ended[mine.id]? with
  | some reason => some (.ended reason)
  | none =>
    let others := gathered.known.toList.filter fun entry =>
      !(entry.1 == mine.id || entry.2.2 != .held ||
        gathered.ended.contains entry.1 || mine.supersedes.contains entry.1)
    let winner := others.find? fun entry =>
      entry.2.1.supersedes.contains mine.id || decide (entry.1 < mine.id)
    winner.map fun entry => .superseded entry.1

variable {mine id : ClaimId Origin} {state : ClaimState}

theorem nextBlocker_ne_none {blocker : Option (Claim Origin × Bool)}
    {entry : ClaimId Origin × Claim Origin × ClaimState} (h : blocker ≠ none) :
    nextBlocker mine blocker entry ≠ none := by
  unfold nextBlocker
  dsimp only
  split
  · simp
  · exact h

theorem foldl_nextBlocker_eq_none {blocker : Option (Claim Origin × Bool)}
    {entries : List (ClaimId Origin × Claim Origin × ClaimState)} :
    entries.foldl (nextBlocker mine) blocker = none ↔
      blocker = none ∧ ∀ entry ∈ entries, blocks mine entry.1 entry.2.2 = false := by
  induction entries generalizing blocker with
  | nil => simp
  | cons entry entries ih =>
    rw [List.foldl_cons, ih]
    constructor
    · rintro ⟨hnext, hrest⟩
      have hblocker : blocker = none := by
        by_contra hne
        exact nextBlocker_ne_none hne hnext
      subst hblocker
      refine ⟨rfl, ?_⟩
      have hentry : blocks mine entry.1 entry.2.2 = false := by
        by_contra hblocks
        simp [nextBlocker, hblocks] at hnext
      simpa [hentry] using hrest
    · rintro ⟨rfl, hall⟩
      have hentry := hall entry (by simp)
      refine ⟨by simp [nextBlocker, hentry], ?_⟩
      intro other hother
      exact hall other (by simp [hother])

/-- A claimant that holds met no rival that is held or has a lesser ticket. -/
theorem blocks_eq_false_of_hold {known : Known Origin} {ended : TreeMap (ClaimId Origin) EndReason}
    {supersedes : List (ClaimId Origin)} (hhold : decideClaim mine known ended = .hold supersedes)
    {claim : Claim Origin} (hknown : known[id]? = some (claim, state))
    (hrival : isRival mine ended id = true) : blocks mine id state = false := by
  unfold decideClaim at hhold
  split at hhold
  · cases hhold
  · dsimp only at hhold
    split at hhold
    · cases hhold
    · rename_i hnone
      have hall := (foldl_nextBlocker_eq_none.mp hnone).2
      have hmem : (id, claim, state) ∈ known.toList :=
        TreeMap.mem_toList_iff_getElem?_eq_some.mpr hknown
      exact hall (id, claim, state) (List.mem_filter.mpr ⟨hmem, hrival⟩)

theorem blocks_of_held_le (h : .held ≤ state) : blocks mine id state = true := by
  obtain rfl : state = .held := le_antisymm state.le_held h
  rfl

theorem blocks_of_live_le (h : .live ≤ state) (hlt : id < mine) : blocks mine id state = true := by
  cases state with
  | expired => exact absurd h (by decide)
  | live => simp [blocks, hlt]
  | held => rfl

/-! ## What the gathered reports remember -/

namespace Gathered

@[simp]
theorem note_ended (gathered : Gathered Origin) (claim : Claim Origin) (state : ClaimState) :
    (gathered.note claim state).ended = gathered.ended :=
  rfl

@[simp]
theorem foldl_note_ended {α : Type*} {f : α → Claim Origin} {g : α → ClaimState} (items : List α)
    (gathered : Gathered Origin) :
    (items.foldl (fun acc item => acc.note (f item) (g item)) gathered).ended =
      gathered.ended := by
  induction items generalizing gathered with
  | nil => rfl
  | cons item items ih => simp [ih]

/-- The state a set of answers gives to a claim is at least `state`. -/
def Knows (gathered : Gathered Origin) (id : ClaimId Origin) (state : ClaimState) : Prop :=
  ∃ claim known, gathered.known[id]? = some (claim, known) ∧ state ≤ known

theorem knows_note_self (gathered : Gathered Origin) (claim : Claim Origin) (state : ClaimState) :
    (gathered.note claim state).Knows claim.id state := by
  by_cases hlt : (gathered.known.getD claim.id (claim, state)).2 < state
  · exact ⟨claim, state, by simp [note, hlt], le_refl state⟩
  · refine ⟨(gathered.known.getD claim.id (claim, state)).1, _, ?_, not_lt.mp hlt⟩
    simp [note, hlt]

theorem Knows.note {gathered : Gathered Origin} (h : gathered.Knows id state)
    (claim : Claim Origin) (other : ClaimState) : (gathered.note claim other).Knows id state := by
  obtain ⟨old, known, hget, hle⟩ := h
  by_cases hid : claim.id = id
  · have hslot : gathered.known.getD claim.id (claim, other) = (old, known) := by
      rw [hid, TreeMap.getD_eq_getD_getElem?, hget]
      rfl
    by_cases hlt : known < other
    · refine ⟨claim, other, ?_, hle.trans hlt.le⟩
      simp [Gathered.note, hslot, hlt, ← hid]
    · refine ⟨old, known, ?_, hle⟩
      simp [Gathered.note, hslot, hlt, ← hid]
  · refine ⟨old, known, ?_, hle⟩
    simp [Gathered.note, TreeMap.getElem?_insert, hid, hget]

theorem Knows.foldl_note {α : Type*} {f : α → Claim Origin} {g : α → ClaimState}
    {gathered : Gathered Origin} (h : gathered.Knows id state) (items : List α) :
    (items.foldl (fun acc item => acc.note (f item) (g item)) gathered).Knows id state := by
  induction items generalizing gathered with
  | nil => exact h
  | cons item items ih => exact ih (h.note (f item) (g item))

theorem knows_foldl_note_of_mem {α : Type*} {f : α → Claim Origin} {g : α → ClaimState}
    {items : List α} {item : α} (hitem : item ∈ items) (gathered : Gathered Origin) :
    (items.foldl (fun acc item => acc.note (f item) (g item)) gathered).Knows
      (f item).id (g item) := by
  induction items generalizing gathered with
  | nil => cases hitem
  | cons head items ih =>
    rcases List.mem_cons.mp hitem with rfl | hmem
    · exact (gathered.knows_note_self (f item) (g item)).foldl_note items
    · exact ih hmem _

end Gathered

end Synch.Locks
