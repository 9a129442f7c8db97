import Synch.Support.Merkle

/-!
# Audit paths of left-balanced hash trees

The audit path of a leaf lists, from the leaf upwards, the values of the
subtrees that join with the ones above the leaf.  The tree can also be read one
level at a time: pair up neighbouring leaves, carry an odd last one up, and
take the tree over what results.
-/

namespace Synch.Support

variable {α : Type*} (join : α → α → α) (leaf : Nat → α)

/-- The audit path of leaf `start + m` in the tree over the `n` leaves from
`start`, at most `2 ^ height` of them. -/
def auditPathUpTo : (height start n m : Nat) → List α
  | 0, _, _, _ => []
  | height + 1, start, n, m =>
    if n ≤ 2 ^ height then
      auditPathUpTo height start n m
    else if m < 2 ^ height then
      auditPathUpTo height start (2 ^ height) m ++
        [treeValueUpTo join leaf height (start + 2 ^ height) (n - 2 ^ height)]
    else
      auditPathUpTo height (start + 2 ^ height) (n - 2 ^ height) (m - 2 ^ height) ++
        [treeValueUpTo join leaf height start (2 ^ height)]

/-- The audit path of leaf `start + m` in the tree over the `n` leaves from
`start`. -/
def auditPath (start n m : Nat) : List α :=
  auditPathUpTo join leaf n start n m

/-- The pairs joined in the tree over the `n` leaves from `start`, at most
`2 ^ height` of them. -/
def joinsUpTo : (height start n : Nat) → List (α × α)
  | 0, _, _ => []
  | height + 1, start, n =>
    if n ≤ 2 ^ height then
      joinsUpTo height start n
    else
      (treeValueUpTo join leaf height start (2 ^ height),
          treeValueUpTo join leaf height (start + 2 ^ height) (n - 2 ^ height)) ::
        (joinsUpTo height start (2 ^ height) ++
          joinsUpTo height (start + 2 ^ height) (n - 2 ^ height))

/-- The pairs joined in the tree over the `n` leaves from `start`. -/
def joins (start n : Nat) : List (α × α) :=
  joinsUpTo join leaf n start n

variable {height n stop s : Nat}

theorem auditPath_eq_upTo (hn : n ≤ 2 ^ height) (start m : Nat) :
    auditPath join leaf start n m = auditPathUpTo join leaf height start n m :=
  upTo_congr (F := fun height => auditPathUpTo join leaf height start n m)
    (fun height h => by rw [auditPathUpTo, if_pos h]) Nat.lt_two_pow_self.le hn

theorem joins_eq_upTo (hn : n ≤ 2 ^ height) (start : Nat) :
    joins join leaf start n = joinsUpTo join leaf height start n :=
  upTo_congr (F := fun height => joinsUpTo join leaf height start n)
    (fun height h => by rw [joinsUpTo, if_pos h]) Nat.lt_two_pow_self.le hn

/-! ## One level up -/

/-- The values one level above the leaves before `stop`; an odd last leaf is
carried up. -/
def pairUp (stop i : Nat) : α :=
  if 2 * i + 1 < stop then join (leaf (2 * i)) (leaf (2 * i + 1)) else leaf (2 * i)

/-- The leaf that a leaf is paired with. -/
def sibling (m : Nat) : Nat :=
  if m % 2 = 0 then m + 1 else m - 1

/-- A run of leaves in which only the last one before `stop` can be left over. -/
def EndsPaired (stop start n : Nat) : Prop :=
  start + n = stop ∨ (n % 2 = 0 ∧ start + n ≤ stop)

/-- A run of leaves that does not fit into one half of the tree: its two halves, and the same one
level up. -/
structure Halved (stop height s n : Nat) : Prop where
  wide : ¬(n + 1) / 2 ≤ 2 ^ height
  rest : n - 2 ^ (height + 1) ≤ 2 ^ (height + 1)
  start : 2 * s + 2 ^ (height + 1) = 2 * (s + 2 ^ height)
  half : (2 ^ (height + 1) + 1) / 2 = 2 ^ height
  halves : (n - 2 ^ (height + 1) + 1) / 2 = (n + 1) / 2 - 2 ^ height
  left : EndsPaired stop (2 * s) (2 ^ (height + 1))
  right : EndsPaired stop (2 * (s + 2 ^ height)) (n - 2 ^ (height + 1))

theorem EndsPaired.halved (h : EndsPaired stop (2 * s) n) (hn : n ≤ 2 ^ (height + 1 + 1))
    (hmore : 2 ^ (height + 1) < n) : Halved stop height s n := by
  rw [Nat.pow_succ 2 (height + 1)] at hn
  refine ⟨by omega, by omega, by omega, by omega, by omega, ?_, ?_⟩
  · rcases h with hend | ⟨-, hend⟩
    · exact .inr ⟨by omega, by omega⟩
    · exact .inr ⟨by omega, by omega⟩
  · rcases h with hend | ⟨heven, hend⟩
    · exact .inl (by omega)
    · exact .inr ⟨by omega, by omega⟩

theorem treeValueUpTo_pairUp (hpos : 0 < n) (hn : n ≤ 2 ^ (height + 1))
    (hends : EndsPaired stop (2 * s) n) :
    treeValueUpTo join leaf (height + 1) (2 * s) n =
      treeValueUpTo join (pairUp join leaf stop) height s ((n + 1) / 2) := by
  induction height generalizing n s with
  | zero =>
    -- one or two leaves
    by_cases hone : n ≤ 1
    · have hlast : ¬2 * s + 1 < stop := by
        rcases hends with hend | ⟨heven, -⟩ <;> omega
      simp [treeValueUpTo, pairUp, hone, hlast]
    · have htwo : 2 * s + 1 < stop := by
        rcases hends with hend | ⟨-, hend⟩ <;> omega
      simp [treeValueUpTo, pairUp, hone, htwo]
  | succ height ih =>
    by_cases hfits : n ≤ 2 ^ (height + 1)
    · have hfits' : (n + 1) / 2 ≤ 2 ^ height := by omega
      rw [treeValueUpTo, if_pos hfits, ih hpos hfits hends, treeValueUpTo, if_pos hfits']
    · have hhalved := hends.halved hn (Nat.not_le.mp hfits)
      rw [treeValueUpTo, if_neg hfits, ih (by omega) le_rfl hhalved.left, hhalved.start,
        ih (by omega) hhalved.rest hhalved.right, treeValueUpTo, if_neg hhalved.wide,
        hhalved.half, hhalved.halves]

theorem auditPathUpTo_pairUp (hn : n ≤ 2 ^ (height + 1)) {m : Nat} (hm : m < n)
    (hends : EndsPaired stop (2 * s) n) :
    auditPathUpTo join leaf (height + 1) (2 * s) n m =
      (if m % 2 = 0 ∧ 2 * s + m + 1 = stop then [] else [leaf (2 * s + sibling m)]) ++
        auditPathUpTo join (pairUp join leaf stop) height s ((n + 1) / 2) (m / 2) := by
  induction height generalizing n s m with
  | zero =>
    by_cases hone : n ≤ 1
    · have hlast : m % 2 = 0 ∧ 2 * s + m + 1 = stop := by
        rcases hends with hend | ⟨heven, -⟩ <;> omega
      simp [auditPathUpTo, hone, hlast]
    · have hpair : ¬(m % 2 = 0 ∧ 2 * s + m + 1 = stop) := by
        rcases hends with hend | ⟨-, hend⟩ <;> omega
      obtain rfl | rfl : m = 0 ∨ m = 1 := by omega
      · rw [if_neg hpair]
        simp [auditPathUpTo, treeValueUpTo, sibling, hone]
      · rw [if_neg hpair]
        simp [auditPathUpTo, treeValueUpTo, sibling, hone]
  | succ height ih =>
    by_cases hfits : n ≤ 2 ^ (height + 1)
    · have hfits' : (n + 1) / 2 ≤ 2 ^ height := by omega
      rw [auditPathUpTo, if_pos hfits, ih hfits hm hends, auditPathUpTo, if_pos hfits']
    obtain ⟨hwide, hrest, hstart, hhalf, hhalves, hleftEnds, hright⟩ :=
      hends.halved hn (Nat.not_le.mp hfits)
    by_cases hleft : m < 2 ^ (height + 1)
    · have hleft' : m / 2 < 2 ^ height := by omega
      rw [auditPathUpTo, if_neg hfits, if_pos hleft,
        ih le_rfl hleft hleftEnds, hstart,
        treeValueUpTo_pairUp join leaf (by omega) hrest hright,
        auditPathUpTo, if_neg hwide, if_pos hleft', List.append_assoc, hhalf, hhalves]
    · have hleft' : ¬m / 2 < 2 ^ height := by omega
      have hmod : (m - 2 ^ (height + 1)) % 2 = m % 2 := by omega
      have hdiv : (m - 2 ^ (height + 1)) / 2 = m / 2 - 2 ^ height := by omega
      have hat : 2 * (s + 2 ^ height) + (m - 2 ^ (height + 1)) = 2 * s + m := by omega
      have hsibling :
          2 * (s + 2 ^ height) + sibling (m - 2 ^ (height + 1)) = 2 * s + sibling m := by
        unfold sibling
        split <;> split <;> omega
      rw [auditPathUpTo, if_neg hfits, if_neg hleft, hstart,
        ih hrest (by omega) hright,
        treeValueUpTo_pairUp join leaf (by omega) le_rfl hleftEnds,
        auditPathUpTo, if_neg hwide, if_neg hleft', List.append_assoc, hmod, hdiv, hat,
        hsibling, hhalf, hhalves]

/-- The leaves paired up, and the pairs joined above them, are pairs joined in
the tree. -/
theorem mem_joinsUpTo_of_pairUp (hpos : 0 < n) (hn : n ≤ 2 ^ (height + 1))
    (hends : EndsPaired stop (2 * s) n) {pair : α × α}
    (h : pair ∈ joinsUpTo join (pairUp join leaf stop) height s ((n + 1) / 2) ∨
      ∃ i, s ≤ i ∧ 2 * i + 1 < 2 * s + n ∧ pair = (leaf (2 * i), leaf (2 * i + 1))) :
    pair ∈ joinsUpTo join leaf (height + 1) (2 * s) n := by
  induction height generalizing n s with
  | zero =>
    rcases h with habove | ⟨i, hi, hlt, rfl⟩
    · simp [joinsUpTo] at habove
    · obtain rfl : i = s := by omega
      obtain rfl : n = 2 := by omega
      simp [joinsUpTo, treeValueUpTo]
  | succ height ih =>
    by_cases hfits : n ≤ 2 ^ (height + 1)
    · have hfits' : (n + 1) / 2 ≤ 2 ^ height := by omega
      rw [joinsUpTo, if_pos hfits'] at h
      rw [joinsUpTo, if_pos hfits]
      exact ih hpos hfits hends h
    obtain ⟨hwide, hrest, hstart, hhalf, hhalves, hleftEnds, hright⟩ :=
      hends.halved hn (Nat.not_le.mp hfits)
    have ihleft := ih (by omega) le_rfl hleftEnds
    have ihright := ih (by omega) hrest hright
    rw [hhalf] at ihleft
    rw [hhalves] at ihright
    rw [joinsUpTo, if_neg hwide, List.mem_cons, List.mem_append] at h
    rw [joinsUpTo, if_neg hfits, List.mem_cons, List.mem_append]
    rcases h with (htop | hleft | hafter) | ⟨i, hi, hlt, rfl⟩
    · left
      rw [htop, hstart, treeValueUpTo_pairUp join leaf (by omega) le_rfl hleftEnds,
        treeValueUpTo_pairUp join leaf (by omega) hrest hright, hhalf, hhalves]
    · exact .inr (.inl (ihleft (.inl hleft)))
    · right; right
      rw [hstart]
      exact ihright (.inl hafter)
    · right
      by_cases hside : i < s + 2 ^ height
      · exact .inl (ihleft (.inr ⟨i, hi, by omega, rfl⟩))
      · right
        rw [hstart]
        exact ihright (.inr ⟨i, by omega, by omega, rfl⟩)

section Whole

variable {join leaf}

theorem half_le_pow (n : Nat) : n ≤ 2 ^ (n + 1) ∧ (n + 1) / 2 ≤ 2 ^ n := by
  have hself : n < 2 ^ n := Nat.lt_two_pow_self
  constructor
  · rw [Nat.pow_succ]
    omega
  · omega

theorem treeValue_pairUp {n : Nat} (hpos : 0 < n) :
    treeValue join leaf 0 n = treeValue join (pairUp join leaf n) 0 ((n + 1) / 2) := by
  obtain ⟨hn, hhalf⟩ := half_le_pow n
  have hstop : EndsPaired n (2 * 0) n := .inl (Nat.zero_add n)
  rw [treeValue_eq_upTo join leaf hn, treeValue_eq_upTo join _ hhalf]
  exact treeValueUpTo_pairUp join leaf hpos hn hstop

/-- The audit path of a leaf is its sibling, unless it is an odd last one, and
the path of the pair above it. -/
theorem auditPath_pairUp {n m : Nat} (hm : m < n) :
    auditPath join leaf 0 n m =
      (if m % 2 = 0 ∧ m + 1 = n then [] else [leaf (sibling m)]) ++
        auditPath join (pairUp join leaf n) 0 ((n + 1) / 2) (m / 2) := by
  obtain ⟨hn, hhalf⟩ := half_le_pow n
  have hstop : EndsPaired n (2 * 0) n := .inl (Nat.zero_add n)
  rw [auditPath_eq_upTo join leaf hn, auditPath_eq_upTo join _ hhalf]
  simpa using auditPathUpTo_pairUp join leaf hn hm hstop

theorem mem_joins_of_above {n : Nat} (hpos : 0 < n) {pair : α × α}
    (h : pair ∈ joins join (pairUp join leaf n) 0 ((n + 1) / 2)) : pair ∈ joins join leaf 0 n := by
  obtain ⟨hn, hhalf⟩ := half_le_pow n
  have hstop : EndsPaired n (2 * 0) n := .inl (Nat.zero_add n)
  rw [joins_eq_upTo join _ hhalf] at h
  rw [joins_eq_upTo join leaf hn]
  exact mem_joinsUpTo_of_pairUp join leaf hpos hn hstop (.inl h)

theorem mem_joins_of_pair {n i : Nat} (hi : 2 * i + 1 < n) :
    (leaf (2 * i), leaf (2 * i + 1)) ∈ joins join leaf 0 n := by
  obtain ⟨hn, -⟩ := half_le_pow n
  have hstop : EndsPaired n (2 * 0) n := .inl (Nat.zero_add n)
  rw [joins_eq_upTo join leaf hn]
  exact mem_joinsUpTo_of_pairUp join leaf (by omega) hn hstop
    (.inr ⟨i, Nat.zero_le i, by omega, rfl⟩)

end Whole

end Synch.Support
