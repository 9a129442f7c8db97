import Mathlib.Algebra.Group.Int.Defs
import Mathlib.Data.List.Basic
import Synch.Support.Run

/-!
# Slots for downloads and writes

Both registries of the control plane note who claimed a slot and when, newest first, and
forget slots older than a lease.  A release names its holder only and drops the newest slot of
the holder, whichever claim it ends.  Releasing an older claim therefore leaves a slot that
expires before the claim it now stands for.
-/

namespace Synch.Api

open List Synch.Support

structure Registry where
  cap : Nat
  lease : Int

def streamRegistry : Registry := ⟨4, 3600⟩

def writeRegistry : Registry := ⟨4, 3600⟩

/-- Holders with the time of their claims. -/
abbrev Slots := List (String × Int)

namespace Registry

variable (registry : Registry)

def held (slots : Slots) (now : Int) : Slots :=
  slots.filter fun slot => decide (slot.2 + registry.lease > now)

/-- Claims a slot, and answers whether it was granted. -/
def claim (slots : Slots) (holder : String) (now : Int) : Slots × Bool :=
  let held := registry.held slots now
  let mine := held.filter fun slot => decide (slot.1 = holder)
  if mine.length < registry.cap then ((holder, now) :: held, true) else (held, false)

/-- The claims of a holder that are younger than the lease. -/
def young (holder : String) (now : Int) (claims : Slots) : Slots :=
  claims.filter fun claim => decide (claim.1 = holder ∧ now < claim.2 + registry.lease)

end Registry

/-- Drops the first slot of a holder. -/
def release (slots : Slots) (holder : String) : Slots :=
  slots.takeWhile (fun slot => decide (slot.1 ≠ holder)) ++
    (slots.dropWhile fun slot => decide (slot.1 ≠ holder)).tail

/-- A registry, with the claims that were granted and not released, newest first. -/
structure World where
  slots : Slots
  live : Slots
  clock : Int

/-- A release ends the claim that its holder was granted at a time. -/
inductive Event where
  | claim (holder : String) (now : Int)
  | release (holder : String) (claimed now : Int)

def World.start (clock : Int) : World := ⟨[], [], clock⟩

def step (registry : Registry) (w : World) : Event → Option World
  | .claim holder now =>
    let answer := registry.claim w.slots holder now
    if w.clock ≤ now then
      some ⟨answer.1, if answer.2 then (holder, now) :: w.live else w.live, now⟩
    else none
  | .release holder claimed now =>
    if w.clock ≤ now ∧ (holder, claimed) ∈ w.live then
      some ⟨release w.slots holder, w.live.erase (holder, claimed), now⟩
    else none

/-- A release ends the newest claim of its holder. -/
def EndsNewest (w : World) : Event → Prop
  | .claim _ _ => True
  | .release holder claimed _ => ∀ claim ∈ w.live, claim.1 = holder → claim.2 ≤ claimed

instance (w : World) : DecidablePred (EndsNewest w)
  | .claim _ _ => isTrue trivial
  | .release _ _ _ => inferInstanceAs (Decidable (∀ claim ∈ w.live, _))

variable {registry : Registry} {claims slots : Slots} {holder other : String} {now later : Int}

/-! ## Newest first -/

/-- All claims were made by now, and none later than one before it. -/
def NewestFirst (now : Int) (claims : Slots) : Prop :=
  (∀ claim ∈ claims, claim.2 ≤ now) ∧ claims.Pairwise fun a b => b.2 ≤ a.2

theorem NewestFirst.of_sublist (h : NewestFirst now claims) (hsub : slots.Sublist claims)
    (hle : now ≤ later) : NewestFirst later slots :=
  ⟨fun claim hclaim => Int.le_trans (h.1 claim (hsub.subset hclaim)) hle, h.2.sublist hsub⟩

theorem NewestFirst.push (h : NewestFirst now claims) (holder : String) :
    NewestFirst now ((holder, now) :: claims) :=
  ⟨forall_mem_cons.mpr ⟨Int.le_refl now, h.1⟩, pairwise_cons.mpr h⟩

theorem release_cons (claim : String × Int) (claims : Slots) (holder : String) :
    release (claim :: claims) holder =
      if claim.1 = holder then claims else claim :: release claims holder := by
  by_cases h : claim.1 = holder <;> simp [release, h]

theorem release_sublist (claims : Slots) (holder : String) :
    (release claims holder).Sublist claims := by
  induction claims with
  | nil => exact .slnil
  | cons claim claims ih =>
    rw [release_cons]
    split
    · exact sublist_cons_self _ _
    · exact ih.cons_cons _

theorem young_cons (claim : String × Int) (claims : Slots) :
    registry.young holder now (claim :: claims) =
      if claim.1 = holder ∧ now < claim.2 + registry.lease then
        claim :: registry.young holder now claims
      else registry.young holder now claims := by
  simp [Registry.young, filter_cons]

/-- What a claim forgets is not young from then on. -/
theorem young_held (h : now ≤ later) :
    registry.young holder later (registry.held slots now) = registry.young holder later slots := by
  rw [Registry.young, Registry.held, filter_filter]
  refine filter_congr fun slot _ => ?_
  simp only [← Bool.decide_and, decide_eq_decide, and_assoc, and_congr_right_iff]
  omega

/-- A release takes the first of the young claims of its holder. -/
theorem young_release (h : claims.Pairwise fun a b => b.2 ≤ a.2) :
    registry.young other now (release claims holder) =
      if other = holder then (registry.young other now claims).tail
      else registry.young other now claims := by
  induction claims with
  | nil => simp [release, Registry.young]
  | cons claim claims ih =>
    obtain ⟨hlater, hrest⟩ := pairwise_cons.mp h
    -- where the first claim is not young, the later ones are not either
    have hnone (hold : ¬now < claim.2 + registry.lease) : registry.young other now claims = [] := by
      refine filter_eq_nil_iff.mpr fun older hmem => ?_
      have hle := hlater older hmem
      simp only [decide_eq_true_eq]
      omega
    have hih := ih hrest
    rw [release_cons]
    split
    · rw [young_cons]
      grind
    · rw [young_cons, young_cons]
      grind

/-- Ending the newest claim of a holder takes its first one. -/
theorem erase_eq_release {claimed : Int} (h : claims.Pairwise fun a b => b.2 ≤ a.2)
    (hmem : (holder, claimed) ∈ claims)
    (hnewest : ∀ claim ∈ claims, claim.1 = holder → claim.2 ≤ claimed) :
    claims.erase (holder, claimed) = release claims holder := by
  induction claims with
  | nil => cases hmem
  | cons claim claims ih =>
    obtain ⟨hlater, hrest⟩ := pairwise_cons.mp h
    obtain ⟨hfirst, hothers⟩ := forall_mem_cons.mp hnewest
    rw [release_cons, erase_cons]
    by_cases hsame : claim = (holder, claimed)
    · simp [hsame]
    · have hlives := (mem_cons.mp hmem).resolve_left (Ne.symm hsame)
      have hne : claim.1 ≠ holder := fun heq =>
        hsame (Prod.ext heq (Int.le_antisymm (hfirst heq) (hlater _ hlives)))
      rw [if_neg hne, ih hrest hlives hothers, if_neg (by simpa using hsame)]

/-! ## Runs -/

/-- From now on the slots tell which claims of each holder are live and young. -/
structure World.Exact (registry : Registry) (w : World) : Prop where
  slots : NewestFirst w.clock w.slots
  live : NewestFirst w.clock w.live
  young : ∀ holder now, w.clock ≤ now →
    registry.young holder now w.slots = registry.young holder now w.live

theorem World.Exact.step {w next : World} {event : Event} (h : w.Exact registry)
    (hnewest : EndsNewest w event) (hstep : step registry w event = some next) :
    next.Exact registry := by
  cases event with
  | claim holder now =>
    obtain ⟨hclock, rfl⟩ := guard_eq_some hstep
    have hheld : NewestFirst now (registry.held w.slots now) :=
      h.slots.of_sublist filter_sublist hclock
    have hlive := h.live.of_sublist (List.Sublist.refl _) hclock
    have hyoung (other : String) (later : Int) (hlater : now ≤ later) :
        registry.young other later (registry.held w.slots now) =
          registry.young other later w.live := by
      rw [young_held hlater, h.young other later (Int.le_trans hclock hlater)]
    unfold Registry.claim
    dsimp only
    split
    · refine ⟨hheld.push holder, hlive.push holder, fun other later hlater => ?_⟩
      rw [young_cons, if_pos rfl, young_cons, hyoung other later hlater]
    · exact ⟨hheld, hlive, hyoung⟩
  | release holder claimed now =>
    obtain ⟨⟨hclock, hmem⟩, rfl⟩ := guard_eq_some hstep
    refine ⟨h.slots.of_sublist (release_sublist _ _) hclock,
      h.live.of_sublist erase_sublist hclock, fun other later hlater => ?_⟩
    rw [erase_eq_release h.live.2 hmem hnewest, young_release h.slots.2, young_release h.live.2,
      h.young other later (Int.le_trans hclock hlater)]

/-- In every run in which each release ends the newest claim of its holder, a claim is granted
only if the live claims of its holder that are younger than the lease stay within the cap, and
refused only if they fill it. -/
theorem slots_count_live_claims (registry : Registry) {clock : Int} {events : List Event}
    {w : World} (hnewest : RunMeets (step registry) EndsNewest (.start clock) events)
    (hrun : run (step registry) (.start clock) events = some w) (holder : String) (now : Int)
    (hnow : w.clock ≤ now) :
    ((registry.claim w.slots holder now).2 = true →
        (registry.young holder now w.live).length + 1 ≤ registry.cap) ∧
      ((registry.claim w.slots holder now).2 = false →
        registry.cap ≤ (registry.young holder now w.live).length) := by
  have hexact : w.Exact registry := run_invariant_of_meets (World.Exact registry)
    (fun _ _ _ h hnewest hstep => h.step hnewest hstep)
    ⟨⟨by simp [World.start], .nil⟩, ⟨by simp [World.start], .nil⟩, fun _ _ _ => rfl⟩ hnewest hrun
  have hmine : (registry.held w.slots now).filter (fun slot => decide (slot.1 = holder)) =
      registry.young holder now w.live := by
    rw [← hexact.young holder now hnow, Registry.held, filter_filter, Registry.young]
    simp only [Bool.decide_and, gt_iff_lt]
  unfold Registry.claim
  dsimp only
  rw [hmine]
  split
  · exact ⟨fun _ => by omega, nofun⟩
  · exact ⟨nofun, fun _ => by omega⟩

/-- Two claims, of which the newer one is released. -/
theorem newest_released_counts :
    ∃ w, run (step writeRegistry) (.start 0)
        [.claim "u" 0, .claim "u" 3000, .release "u" 3000 3001] = some w ∧
      (writeRegistry.claim w.slots "u" 3599).2 = true ∧
      (writeRegistry.young "u" 3599 w.live).length + 1 ≤ 4 := by
  refine ⟨_, rfl, by decide, ?_⟩
  have hnewest : RunMeets (step writeRegistry) EndsNewest (.start 0)
      [.claim "u" 0, .claim "u" 3000, .release "u" 3000 3001] := by decide
  exact (slots_count_live_claims writeRegistry hnewest rfl "u" 3599 (by decide)).1 (by decide)

/-- The older one of two claims is released.  Its lease is what the other one is judged by, so an
hour after it a fifth claim is granted beside four live ones. -/
theorem older_released_overadmits :
    ∃ w, run (step streamRegistry) (.start 0)
        [.claim "u" 0, .claim "u" 3000, .release "u" 0 3001, .claim "u" 3600, .claim "u" 3600,
          .claim "u" 3600] = some w ∧
      (streamRegistry.claim w.slots "u" 3600).2 = true ∧
      (streamRegistry.young "u" 3600 w.live).length = 4 ∧ streamRegistry.cap = 4 :=
  ⟨_, rfl, by decide, by decide, rfl⟩

/-- Younger than the lease there are at most as many slots of a holder as live claims. -/
structure World.Within (registry : Registry) (w : World) : Prop where
  slots : NewestFirst w.clock w.slots
  young : ∀ holder now,
    (registry.young holder now w.slots).length ≤ (registry.young holder now w.live).length

theorem World.Within.step {w next : World} {event : Event} (h : w.Within registry)
    (hstep : step registry w event = some next) : next.Within registry := by
  cases event with
  | claim holder now =>
    obtain ⟨hclock, rfl⟩ := guard_eq_some hstep
    have hheld : NewestFirst now (registry.held w.slots now) :=
      h.slots.of_sublist filter_sublist hclock
    have hyoung (other : String) (later : Int) :
        (registry.young other later (registry.held w.slots now)).length ≤
          (registry.young other later w.live).length :=
      Nat.le_trans (filter_sublist.filter _).length_le (h.young other later)
    unfold Registry.claim
    dsimp only
    split
    · refine ⟨hheld.push holder, fun other later => ?_⟩
      rw [if_pos rfl, young_cons, young_cons]
      grind
    · exact ⟨hheld, hyoung⟩
  | release holder claimed now =>
    obtain ⟨⟨hclock, hmem⟩, rfl⟩ := guard_eq_some hstep
    refine ⟨h.slots.of_sublist (release_sublist _ _) hclock, fun other later => ?_⟩
    -- the slots lose a young one if they have any, the claims lose at most one
    have hlive : (registry.young other later w.live).length = (registry.young other later _).length :=
      ((perm_cons_erase hmem).filter _).length_eq
    rw [young_cons] at hlive
    rw [young_release h.slots.2]
    grind [h.young other later]

/-- In whatever order claims are released, a claim is refused only if the live claims of its
holder that are younger than the lease fill the cap. -/
theorem refused_only_at_cap (registry : Registry) (clock : Int) (events : List Event) {w : World}
    (hrun : run (step registry) (.start clock) events = some w) (holder : String) (now : Int)
    (hrefused : (registry.claim w.slots holder now).2 = false) :
    registry.cap ≤ (registry.young holder now w.live).length := by
  have hwithin : w.Within registry := run_invariant (World.Within registry)
    (fun _ _ _ h hstep => h.step hstep) ⟨⟨by simp [World.start], .nil⟩, fun _ _ => Nat.le_refl _⟩ hrun
  refine Nat.le_trans ?_ (hwithin.young holder now)
  simp only [Registry.claim, Registry.held, filter_filter] at hrefused
  simp only [Registry.young, Bool.decide_and]
  grind

/-- The older one of two claims is released, and a fifth claim refused beside four live ones. -/
theorem refused_beside_four :
    let events : List Event := [.claim "u" 0, .claim "u" 1, .release "u" 0 2, .claim "u" 3,
      .claim "u" 3, .claim "u" 3]
    ∃ w, run (step streamRegistry) (.start 0) events = some w ∧
      4 ≤ (streamRegistry.young "u" 3 w.live).length := by
  intro events
  exact ⟨_, rfl, refused_only_at_cap streamRegistry 0 events rfl "u" 3 (by decide)⟩

end Synch.Api
