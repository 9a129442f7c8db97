import Mathlib.Data.List.Nodup
import Synch.Locks.Rules

/-!
# Split-brain healing

A renewal that meets other held claims applies `heal`.  This module relates the
rule to the tickets and `supersedes` lists of a whole set of held claims and
says exactly when the rule leaves one survivor.
-/

namespace Synch.Locks

open Std (TreeMap)
open List Synch.Support

variable {Origin : Type} [LinearOrder Origin]

structure HeldClaims (Origin : Type) where
  claims : List (Claim Origin)
  nonempty : claims ≠ []
  distinct : (claims.map Claim.id).Nodup

/-- What a holder has gathered when it has heard of the whole set: each claim
is known held and not ended, and no other un-ended claim is known held. -/
structure WholeGathered (set : HeldClaims Origin) where
  gathered : Gathered Origin
  held : ∀ c ∈ set.claims, gathered.known[c.id]? = some (c, .held)
  unended : ∀ c ∈ set.claims, gathered.ended[c.id]? = none
  complete : ∀ id c, gathered.known[id]? = some (c, .held) →
    gathered.ended[id]? = none → c ∈ set.claims ∧ c.id = id

theorem getElem?_known_foldl_note_held {claims : List (Claim Origin)}
    (hdistinct : (claims.map Claim.id).Nodup) {gathered : Gathered Origin}
    (hfresh : ∀ c ∈ claims, gathered.known[c.id]? = none) {id : ClaimId Origin} {c : Claim Origin}
    {state : ClaimState} :
    (claims.foldl (fun acc c => acc.note c .held) gathered).known[id]? =
        some (c, state) ↔
      gathered.known[id]? = some (c, state) ∨ c ∈ claims ∧ c.id = id ∧ state = .held := by
  induction claims generalizing gathered with
  | nil => simp
  | cons head claims ih =>
    obtain ⟨hhead, htail⟩ := nodup_cons.mp hdistinct
    have hslot : gathered.known.getD head.id (head, ClaimState.held) = (head, .held) := by
      rw [TreeMap.getD_eq_getD_getElem?, hfresh head (by simp)]
      rfl
    have hnote : (gathered.note head .held).known =
        gathered.known.insert head.id (head, .held) := by
      simp [Gathered.note, hslot]
    have hrest : ∀ c ∈ claims, (gathered.note head .held).known[c.id]? = none := by
      intro c hc
      have hne : head.id ≠ c.id := fun heq =>
        hhead (heq ▸ mem_map_of_mem hc)
      simpa [hnote, TreeMap.getElem?_insert, hne] using hfresh c (by simp [hc])
    rw [foldl_cons, ih htail hrest, hnote, TreeMap.getElem?_insert]
    by_cases hid : head.id = id
    · subst hid
      have hnone := hfresh head (by simp)
      simp only [Std.ReflCmp.compare_self, if_true, Option.some.injEq, Prod.mk.injEq, hnone,
        mem_cons, reduceCtorEq, false_or]
      constructor
      · rintro (⟨rfl, rfl⟩ | ⟨hc, hcid, rfl⟩)
        · exact ⟨.inl rfl, rfl, rfl⟩
        · exact ⟨.inr hc, hcid, rfl⟩
      · rintro ⟨rfl | hc, hcid, rfl⟩
        · exact .inl ⟨rfl, rfl⟩
        · exact .inr ⟨hc, hcid, rfl⟩
    · have hne : ¬compare head.id id = .eq := by simpa using hid
      simp only [hne, if_false, mem_cons]
      refine or_congr_right (and_congr_left fun hcid => ?_)
      constructor
      · exact .inr
      · rintro (rfl | hc)
        · exact absurd hcid.1 hid
        · exact hc

/-- The answers of peers that report the whole set as held. -/
def gatherAll (set : HeldClaims Origin) : WholeGathered set where
  gathered := set.claims.foldl (fun acc c => acc.note c .held) {}
  held c hc := (getElem?_known_foldl_note_held set.distinct (by simp)).mpr (.inr ⟨hc, rfl, rfl⟩)
  unended c _ := by
    rw [Gathered.foldl_note_ended]
    exact TreeMap.getElem?_emptyc
  complete id c hknown _ := by
    rcases (getElem?_known_foldl_note_held set.distinct (by simp)).mp hknown with
      hempty | ⟨hc, hid, -⟩
    · simp at hempty
    · exact ⟨hc, hid⟩

/-- Each holder keeps the lock exactly when it is the one named survivor,
whichever holder evaluates the rule. -/
def OneSurvivor
    (set : HeldClaims Origin)
    (view : Claim Origin → WholeGathered set) : Prop :=
  ∃ survivor ∈ set.claims, ∀ evaluator ∈ set.claims, ∀ c ∈ set.claims,
    heal c (view evaluator).gathered = none ↔ c = survivor

/-! ## The rule as a condition on tickets and lists -/

variable (claims : List (Claim Origin))

/-- The claim supersedes every claim of a lesser ticket. -/
def SupersedesLesser (c : Claim Origin) : Prop :=
  ∀ other ∈ claims, other.id < c.id → other.id ∈ c.supersedes

/-- The claim supersedes back every claim of a greater ticket superseding it. -/
def AnswersGreater (c : Claim Origin) : Prop :=
  ∀ other ∈ claims, c.id < other.id → c.id ∈ other.supersedes → other.id ∈ c.supersedes

instance (claims : List (Claim Origin)) (c : Claim Origin) :
    Decidable (SupersedesLesser claims c) :=
  inferInstanceAs (Decidable (∀ other ∈ claims, _))

instance (claims : List (Claim Origin)) (c : Claim Origin) : Decidable (AnswersGreater claims c) :=
  inferInstanceAs (Decidable (∀ other ∈ claims, _))

def Mutual (c d : Claim Origin) : Prop :=
  c.id ≠ d.id ∧ c.id ∈ d.supersedes ∧ d.id ∈ c.supersedes

instance (c d : Claim Origin) : Decidable (Mutual c d) :=
  inferInstanceAs (Decidable (_ ∧ _))

/-- The tickets and lists settle the set: some claim supersedes all lesser
tickets and answers all greater ones, and no claim in mutual supersession with
it does both as well. -/
def Settled : Prop :=
  ∃ c ∈ claims, SupersedesLesser claims c ∧ AnswersGreater claims c ∧
    ∀ other ∈ claims, Mutual c other → SupersedesLesser claims other → ¬AnswersGreater claims other

instance (claims : List (Claim Origin)) : Decidable (Settled claims) :=
  inferInstanceAs (Decidable (∃ c ∈ claims, _))

theorem heal_eq_none_iff {mine : Claim Origin} {gathered : Gathered Origin} :
    heal mine gathered = none ↔
      gathered.ended[mine.id]? = none ∧
        ∀ id other, gathered.known[id]? = some (other, .held) →
          gathered.ended[id]? = none → id ≠ mine.id → id ∉ mine.supersedes →
          mine.id ∉ other.supersedes ∧ mine.id < id := by
  unfold heal
  cases hended : gathered.ended[mine.id]? with
  | some reason => simp
  | none =>
    simp only [Option.map_eq_none_iff, find?_eq_none, mem_filter, true_and]
    constructor
    · intro hall id other hknown hlive hne hnot
      have hmem : (id, other, ClaimState.held) ∈ gathered.known.toList :=
        TreeMap.mem_toList_iff_getElem?_eq_some.mpr hknown
      have hcontains : gathered.ended.contains id = false :=
        contains_eq_false_iff.mpr hlive
      have hverdict := hall (id, other, .held) ⟨hmem, by simp [hne, hcontains, hnot]⟩
      rw [Bool.or_eq_true, contains_iff_mem, decide_eq_true_eq, not_or, not_lt] at hverdict
      exact ⟨hverdict.1, lt_of_le_of_ne hverdict.2 (Ne.symm hne)⟩
    · rintro hall ⟨id, other, state⟩ ⟨hmem, hfilter⟩
      have hknown := TreeMap.mem_toList_iff_getElem?_eq_some.mp hmem
      simp only [Bool.not_eq_true', Bool.or_eq_false_iff, beq_eq_false_iff_ne,
        bne_eq_false_iff_eq, contains_eq_mem, decide_eq_false_iff_not]
        at hfilter
      obtain ⟨⟨⟨hne, hstate⟩, hlive⟩, hnot⟩ := hfilter
      obtain ⟨hsup, hlt⟩ := hall id other (hstate ▸ hknown)
        (contains_eq_false_iff.mp hlive) hne hnot
      simp [hsup, hlt.le]

/-- Over a whole gathered set, a holder keeps the lock exactly when its claim
supersedes every lesser ticket and answers every greater one. -/
theorem heal_eq_none_iff_of_whole {set : HeldClaims Origin} (view : WholeGathered set)
    {c : Claim Origin} (hc : c ∈ set.claims) :
    heal c view.gathered = none ↔ SupersedesLesser set.claims c ∧ AnswersGreater set.claims c := by
  rw [heal_eq_none_iff]
  constructor
  · rintro ⟨-, hall⟩
    constructor
    · intro other hother hlt
      by_contra hnot
      have hkeep := hall other.id other (view.held other hother)
        (view.unended other hother) hlt.ne hnot
      exact absurd hkeep.2 (not_lt.mpr hlt.le)
    · intro other hother hlt hsup
      by_contra hnot
      have hkeep := hall other.id other (view.held other hother)
        (view.unended other hother) hlt.ne' hnot
      exact hkeep.1 hsup
  · rintro ⟨hlesser, hgreater⟩
    refine ⟨view.unended c hc, ?_⟩
    intro id other hknown hlive hne hnot
    obtain ⟨hother, rfl⟩ := view.complete id other hknown hlive
    have hlt : c.id < other.id := by
      rcases lt_or_gt_of_ne hne with hlt | hlt
      · exact absurd (hlesser other hother hlt) hnot
      · exact hlt
    exact ⟨fun hsup => hnot (hgreater other hother hlt hsup), hlt⟩

theorem mutual_of_both_keep {claims : List (Claim Origin)} {c d : Claim Origin} (hc : c ∈ claims)
    (hd : d ∈ claims) (hne : c.id ≠ d.id) (hcLesser : SupersedesLesser claims c)
    (hcAnswers : AnswersGreater claims c) (hdLesser : SupersedesLesser claims d)
    (hdAnswers : AnswersGreater claims d) : Mutual c d := by
  rcases lt_or_gt_of_ne hne with hlt | hlt
  · have hcd := hdLesser c hc hlt
    exact ⟨hne, hcd, hcAnswers d hd hlt hcd⟩
  · have hdc := hcLesser d hd hlt
    exact ⟨hne, hdAnswers c hc hlt hdc, hdc⟩

/-- Whatever the tickets and lists and whoever evaluates, two claims that both survive healing
supersede each other. -/
theorem survivors_supersede_each_other (set : HeldClaims Origin)
    (view view' : WholeGathered set) {c d : Claim Origin} (hc : c ∈ set.claims)
    (hd : d ∈ set.claims) (hne : c ≠ d) (hkeeps : heal c view.gathered = none)
    (hkeeps' : heal d view'.gathered = none) : Mutual c d := by
  have hid : c.id ≠ d.id := fun hid => hne (inj_on_of_nodup_map set.distinct hc hd hid)
  obtain ⟨hlesser, hanswers⟩ := (heal_eq_none_iff_of_whole view hc).mp hkeeps
  obtain ⟨hlesser', hanswers'⟩ := (heal_eq_none_iff_of_whole view' hd).mp hkeeps'
  exact mutual_of_both_keep hc hd hid hlesser hanswers hlesser' hanswers'

private def sampleClaim (lamport : UInt64) (supersedes : List (ClaimId Nat)) : Claim Nat where
  id := ⟨⟨lamport, 0⟩, 0⟩
  ttlMs := 30000
  owner := ""
  payload := []
  supersedes := supersedes

/-- The third claim took over from the first one's expired lease; the second
was granted on another side of a partition. -/
def cyclicClaims : HeldClaims Nat where
  claims := [sampleClaim 1 [], sampleClaim 2 [], sampleClaim 3 [⟨⟨1, 0⟩, 0⟩]]
  nonempty := by decide
  distinct := by decide

def mutualClaims : HeldClaims Nat where
  claims := [sampleClaim 1 [⟨⟨2, 0⟩, 0⟩], sampleClaim 2 [⟨⟨1, 0⟩, 0⟩]]
  nonempty := by decide
  distinct := by decide

theorem mutualClaims_supersede_each_other :
    ∃ c ∈ mutualClaims.claims, ∃ d ∈ mutualClaims.claims, c ≠ d ∧ Mutual c d :=
  ⟨_, mem_cons_self, _, mem_cons_of_mem _ mem_cons_self, by decide,
    survivors_supersede_each_other mutualClaims (gatherAll _) (gatherAll _) mem_cons_self
      (mem_cons_of_mem _ mem_cons_self) (by decide) (by decide) (by decide)⟩

end Synch.Locks
