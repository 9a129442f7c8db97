import Mathlib.Order.Lattice

/-!
# Exclusion by claim exchange

A participant takes a claim, has every other participant record it and report
the claim it holds, and then holds unless it was told of a held claim or has
recorded a lesser one.  The view below keeps only what the exclusion argument
needs, over arbitrary participants and linearly ordered claim names.  The rules
say which changes of a view keep the invariant.
-/

namespace Synch.Support

variable {N Id : Type*} [LinearOrder Id]

/-- A running exchange: who answered it and which claims it was told are held. -/
structure Attempt (N Id : Type*) where
  id : Id
  answered : N → Prop
  told : Id → Prop

/-- What an exclusion argument sees of a system: the claim each participant
owns and whether it is held, the claims each has recorded, and the exchanges. -/
structure View (N Id : Type*) where
  own : N → Option (Id × Bool)
  seen : N → Id → Prop
  attempts : Set (Attempt N Id)

namespace View

/-- Some participant owns the claim. -/
def Live (v : View N Id) (i : Id) : Prop :=
  ∃ n b, v.own n = some (i, b)

/-- The invariant behind exclusion.  A participant that answered an exchange has
recorded its claim, and a holder that answered was reported or is lesser. -/
structure Inv (participant : N → Prop) (v : View N Id) : Prop where
  claimant : ∀ {n c}, v.own n = some c → participant n
  distinct : ∀ {n m i b b'}, v.own n = some (i, b) → v.own m = some (i, b') → n = m
  recorded : ∀ {a n m b}, a ∈ v.attempts → v.own n = some (a.id, b) →
    participant m → m ≠ n → a.answered m → v.seen m a.id
  heldSeen : ∀ {n m i}, v.own n = some (i, true) → participant m → m ≠ n → v.seen m i
  race : ∀ {a n m j}, a ∈ v.attempts → v.own n = some (a.id, false) →
    participant m → m ≠ n → a.answered m → v.own m = some (j, true) → a.told j ∨ j < a.id
  exclusive : ∀ {n m i j}, v.own n = some (i, true) → v.own m = some (j, true) → n = m

/-- An exchange of the later view continues one of the earlier view: it forgets
no report, and whoever newly answered has recorded it and reported its hold. -/
def Continues (v v' : View N Id) (a' : Attempt N Id) : Prop :=
  ∃ a ∈ v.attempts, a'.id = a.id ∧ (∀ j, a.told j → a'.told j) ∧
    ∀ m, a'.answered m → a.answered m ∨
      ((v'.Live a.id → v'.seen m a.id) ∧ ∀ j, v.own m = some (j, true) → a'.told j)

/-- Recorded claims are only forgotten once nobody owns them. -/
def KeepsSeen (v v' : View N Id) : Prop :=
  ∀ m i, v.seen m i → v'.Live i → v'.seen m i

omit [LinearOrder Id] in
theorem continues_of_mem {v : View N Id} {a : Attempt N Id} (h : a ∈ v.attempts) (v' : View N Id) :
    v.Continues v' a :=
  ⟨a, h, rfl, fun _ htold => htold, fun _ hanswered => .inl hanswered⟩

variable {participant : N → Prop} {v v' : View N Id}

/-- Whoever answered a continued exchange has recorded its claim. -/
theorem Inv.recorded_of_continues (h : v.Inv participant) (hseen : v.KeepsSeen v')
    {a' : Attempt N Id} (ha' : v.Continues v' a') {n m : N} {b : Bool}
    (hn : v'.own n = some (a'.id, b)) (hn' : v.own n = some (a'.id, b)) (hm : participant m)
    (hne : m ≠ n) (hanswered : a'.answered m) : v'.seen m a'.id := by
  obtain ⟨a, ha, hid, -, hold⟩ := ha'
  have hlive : v'.Live a.id := ⟨n, b, hid ▸ hn⟩
  rw [hid]
  rcases hold m hanswered with hbefore | ⟨hrecorded, -⟩
  · exact hseen m a.id (h.recorded ha (hid ▸ hn') hm hne hbefore) hlive
  · exact hrecorded hlive

/-- A holder that answered a continued exchange was reported or is lesser. -/
theorem Inv.race_of_continues (h : v.Inv participant) {a' : Attempt N Id}
    (ha' : v.Continues v' a') {n m : N} {j : Id} (hn : v.own n = some (a'.id, false))
    (hm : participant m) (hne : m ≠ n) (hanswered : a'.answered m)
    (hholder : v.own m = some (j, true)) : a'.told j ∨ j < a'.id := by
  obtain ⟨a, ha, hid, htold, hold⟩ := ha'
  rcases hold m hanswered with hbefore | ⟨-, hreported⟩
  · rw [hid]
    exact (h.race ha (hid ▸ hn) hm hne hbefore hholder).imp_left (htold j)
  · exact .inl (hreported j hholder)

/-- Steps without a new owner or holder keep the invariant. -/
theorem Inv.keep (h : v.Inv participant) (hown : ∀ n c, v'.own n = some c → v.own n = some c)
    (hseen : v.KeepsSeen v') (hattempts : ∀ a' ∈ v'.attempts, v.Continues v' a') :
    v'.Inv participant where
  claimant hn := h.claimant (hown _ _ hn)
  distinct hn hm := h.distinct (hown _ _ hn) (hown _ _ hm)
  recorded ha' hn hm hne hanswered :=
    h.recorded_of_continues hseen (hattempts _ ha') hn (hown _ _ hn) hm hne hanswered
  heldSeen := by
    intro n m i hn hm hne
    exact hseen m i (h.heldSeen (hown _ _ hn) hm hne) ⟨n, true, hn⟩
  race ha' hn hm hne hanswered hholder :=
    h.race_of_continues (hattempts _ ha') (hown _ _ hn) hm hne hanswered (hown _ _ hholder)
  exclusive hn hm := h.exclusive (hown _ _ hn) (hown _ _ hm)

/-- Taking a claim nobody owns, with an exchange nobody answered yet. -/
theorem Inv.claim (h : v.Inv participant) {n₀ : N} {i : Id} (hparticipant : participant n₀)
    (hfresh : ¬v.Live i) (hnew : ∀ c, v'.own n₀ = some c → c = (i, false))
    (hown : ∀ n c, n ≠ n₀ → v'.own n = some c → v.own n = some c) (hseen : v.KeepsSeen v')
    (hattempts : ∀ a' ∈ v'.attempts, (v.Continues v' a' ∧ a'.id ≠ i) ∨ (∀ m, ¬a'.answered m)) :
    v'.Inv participant := by
  -- a holder, and whoever owns another claim, is not the one that took this claim
  have hholder {n : N} {j : Id} (hn : v'.own n = some (j, true)) : v.own n = some (j, true) := by
    refine hown n _ ?_ hn
    rintro rfl
    exact absurd (congrArg Prod.snd (hnew _ hn)) (by simp)
  have hother {n : N} {j : Id} {b : Bool} (hj : j ≠ i) (hn : v'.own n = some (j, b)) :
      v.own n = some (j, b) := by
    refine hown n _ ?_ hn
    rintro rfl
    exact hj (congrArg Prod.fst (hnew _ hn))
  refine
    { claimant := ?_
      distinct := ?_
      recorded := ?_
      heldSeen := ?_
      race := ?_
      exclusive := fun hn hm => h.exclusive (hholder hn) (hholder hm) }
  · intro n c hn
    by_cases hn₀ : n = n₀
    · exact hn₀ ▸ hparticipant
    · exact h.claimant (hown n c hn₀ hn)
  · intro n m j b b' hn hm
    by_cases hj : j = i
    · subst hj
      have htaker : ∀ {k c}, v'.own k = some (j, c) → k = n₀ := by
        intro k c hk
        by_contra hk₀
        exact hfresh ⟨k, c, hown k _ hk₀ hk⟩
      rw [htaker hn, htaker hm]
    · exact h.distinct (hother hj hn) (hother hj hm)
  · intro a' n m b ha' hn hm hne hanswered
    rcases hattempts a' ha' with ⟨hcontinues, hid⟩ | hnone
    · exact h.recorded_of_continues hseen hcontinues hn (hother hid hn) hm hne hanswered
    · exact absurd hanswered (hnone m)
  · intro n m j hn hm hne
    exact hseen m j (h.heldSeen (hholder hn) hm hne) ⟨n, true, hn⟩
  · intro a' n m j ha' hn hm hne hanswered hheld
    rcases hattempts a' ha' with ⟨hcontinues, hid⟩ | hnone
    · exact h.race_of_continues hcontinues (hother hid hn) hm hne hanswered (hholder hheld)
    · exact absurd hanswered (hnone m)

/-- Holding a claim that everybody answered, without having been told of a held
claim somebody owns and without a lesser one recorded. -/
theorem Inv.hold (h : v.Inv participant) {n₀ : N} {a₀ : Attempt N Id} (ha₀ : a₀ ∈ v.attempts)
    (hmine : v.own n₀ = some (a₀.id, false))
    (hanswers : ∀ m, participant m → m ≠ n₀ → a₀.answered m)
    (hdecided : ∀ m j b, m ≠ n₀ → v.own m = some (j, b) →
      ¬a₀.told j ∧ (v.seen n₀ j → ¬j < a₀.id)) (hnew : ∀ c, v'.own n₀ = some c → c = (a₀.id, true))
    (hown : ∀ n c, n ≠ n₀ → v'.own n = some c → v.own n = some c) (hseen : v.KeepsSeen v')
    (hattempts : ∀ a' ∈ v'.attempts, ∃ a ∈ v.attempts, a'.id = a.id ∧
      (∀ j, a.told j → a'.told j) ∧ ∀ m, a'.answered m → a.answered m) : v'.Inv participant := by
  have hparticipant : participant n₀ := h.claimant hmine
  have hbefore : ∀ n i b, v'.own n = some (i, b) → ∃ b', v.own n = some (i, b') := by
    intro n i b hn
    by_cases hn₀ : n = n₀
    · subst hn₀
      have hi : i = a₀.id := congrArg Prod.fst (hnew _ hn)
      exact ⟨false, hi ▸ hmine⟩
    · exact ⟨b, hown n _ hn₀ hn⟩
  have halone : ∀ m j, m ≠ n₀ → v.own m ≠ some (j, true) := by
    intro m j hne hholder
    obtain ⟨huntold, hgreater⟩ := hdecided m j true hne hholder
    have hm : participant m := h.claimant hholder
    rcases h.race ha₀ hmine hm hne (hanswers m hm hne) hholder with htold | hlt
    · exact huntold htold
    · exact hgreater (h.heldSeen hholder hparticipant (Ne.symm hne)) hlt
  refine
    { claimant := ?_
      distinct := ?_
      recorded := ?_
      heldSeen := ?_
      race := ?_
      exclusive := ?_ }
  · rintro n ⟨i, b⟩ hn
    obtain ⟨b', hn'⟩ := hbefore n i b hn
    exact h.claimant hn'
  · intro n m i b b' hn hm
    obtain ⟨c, hn'⟩ := hbefore n i b hn
    obtain ⟨c', hm'⟩ := hbefore m i b' hm
    exact h.distinct hn' hm'
  · intro a' n m b ha' hn hm hne hanswered
    obtain ⟨a, ha, hid, -, hold⟩ := hattempts a' ha'
    obtain ⟨c, hn'⟩ := hbefore n a'.id b hn
    have hrecorded := h.recorded ha (hid ▸ hn') hm hne (hold m hanswered)
    rw [hid]
    exact hseen m a.id hrecorded ⟨n, b, hid ▸ hn⟩
  · intro n m i hn hm hne
    by_cases hn₀ : n = n₀
    · subst hn₀
      have hi : i = a₀.id := congrArg Prod.fst (hnew _ hn)
      subst hi
      exact hseen m a₀.id (h.recorded ha₀ hmine hm hne (hanswers m hm hne)) ⟨n, true, hn⟩
    · exact absurd (hown n _ hn₀ hn) (halone n i hn₀)
  · intro a' n m j ha' hn hm hne hanswered hholder
    obtain ⟨a, ha, hid, htold, hold⟩ := hattempts a' ha'
    have hn₀ : n ≠ n₀ := by
      rintro rfl
      exact absurd (congrArg Prod.snd (hnew _ hn)) (by simp)
    have hn' : v.own n = some (a.id, false) := hown n _ hn₀ (hid ▸ hn)
    by_cases hm₀ : m = n₀
    · subst hm₀
      have hj : j = a₀.id := congrArg Prod.fst (hnew _ hholder)
      have hrecorded := h.recorded ha hn' hm hne (hold m hanswered)
      have hle := (hdecided n a.id false hn₀ hn').2 hrecorded
      have hdiff : a₀.id ≠ a.id := fun heq =>
        hn₀ (h.distinct hn' (heq ▸ hmine))
      rw [hid, hj]
      exact .inr (lt_of_le_of_ne (not_lt.mp hle) hdiff)
    · exact absurd (hown m _ hm₀ hholder) (halone m j hm₀)
  · intro n m i j hn hm
    by_cases hn₀ : n = n₀
    · by_cases hm₀ : m = n₀
      · rw [hn₀, hm₀]
      · exact absurd (hown m _ hm₀ hm) (halone m j hm₀)
    · exact absurd (hown n _ hn₀ hn) (halone n i hn₀)

end View

end Synch.Support
