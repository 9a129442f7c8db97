import Mathlib.Data.List.Basic
import Mathlib.Data.Prod.Lex

/-!
# Lock keys

A bucket names its lock keys by patterns.  The matcher walks pattern and key together
and keeps one place to go back to: the last star it met, and how far the star has been
stretched.  A position is kept as the text from it on.
-/

namespace Synch.S3

open List

/-- The loop of the matcher.  `back` is the pattern behind the last star and the key from
the mark on. -/
def globFrom (pattern key : List Char) (back : Option (List Char × List Char)) : Bool :=
  match key with
  | [] => pattern.all (· == '*')
  | c :: rest =>
    if pattern.head? = some '?' ∨ pattern.head? = some c then globFrom pattern.tail rest back
    else if pattern.head? = some '*' then
      globFrom pattern.tail (c :: rest) (some (pattern.tail, c :: rest))
    else
      match back with
      | some (after, _ :: marked) => globFrom after marked (some (after, marked))
      | _ => false
termination_by (max (back.elim 0 fun place => place.2.length) key.length, pattern.length)
decreasing_by
  all_goals cases pattern <;> simp_all [Prod.lex_def] <;> try omega

/-- Matches a key against a pattern where `*` is any run of characters and `?` any one. -/
def glob (pattern key : String) : Bool :=
  globFrom pattern.toList key.toList none

/-- Whether a key is one of the lock keys that a bucket's patterns name. -/
def isLockKey (locks : List String) (key : String) : Bool :=
  !key.isEmpty && locks.any fun pattern => glob pattern key

/-- What one character of a pattern stands for. -/
def Fits (p : Char) (piece : List Char) : Prop :=
  if p = '*' then True else if p = '?' then piece.length = 1 else piece = [p]

/-- The key can be cut into pieces that fit the pattern in order. -/
def Matches : List Char → List Char → Prop
  | [], key => key = []
  | p :: more, key => ∃ piece left, key = piece ++ left ∧ Fits p piece ∧ Matches more left

variable {pattern more key : List Char} {p c : Char} {back : Option (List Char × List Char)}

theorem matches_star :
    Matches ('*' :: more) key ↔ ∃ run left, key = run ++ left ∧ Matches more left := by
  simp [Matches, Fits]

/-- A star takes nothing, or the first character and perhaps more. -/
theorem matches_star_iff :
    Matches ('*' :: more) key ↔
      Matches more key ∨ ∃ c rest, key = c :: rest ∧ Matches ('*' :: more) rest := by
  simp only [matches_star]
  constructor
  · rintro ⟨_ | ⟨c, run⟩, left, rfl, h⟩
    · exact .inl h
    · exact .inr ⟨c, run ++ left, rfl, run, left, rfl, h⟩
  · rintro (h | ⟨c, _, rfl, run, left, rfl, h⟩)
    · exact ⟨[], key, rfl, h⟩
    · exact ⟨c :: run, left, rfl, h⟩

theorem matches_letter (hp : p ≠ '*') :
    Matches (p :: more) key ↔
      ∃ c rest, key = c :: rest ∧ (p = '?' ∨ p = c) ∧ Matches more rest := by
  rw [Matches]
  constructor
  · rintro ⟨piece, left, rfl, hpiece, h⟩
    rw [Fits, if_neg hp] at hpiece
    split at hpiece
    · obtain ⟨c, rfl⟩ := length_eq_one_iff.mp hpiece
      exact ⟨c, left, rfl, .inl ‹_›, h⟩
    · exact ⟨p, left, hpiece ▸ rfl, .inr rfl, h⟩
  · rintro ⟨c, rest, rfl, hc, h⟩
    refine ⟨[c], rest, rfl, ?_, h⟩
    rw [Fits, if_neg hp]
    split
    · rfl
    · rw [hc.resolve_left ‹_›]

/-- A pattern without stars takes a character for each of its own. -/
theorem Matches.split {front text : List Char} (hfront : '*' ∉ front)
    (h : Matches (front ++ pattern) text) :
    front.length ≤ text.length ∧ Matches pattern (text.drop front.length) := by
  induction front generalizing text with
  | nil => exact ⟨Nat.zero_le _, h⟩
  | cons p front ih =>
    rw [mem_cons, not_or] at hfront
    obtain ⟨hp, hrest⟩ := hfront
    obtain ⟨c, rest, rfl, -, hmatch⟩ := (matches_letter (Ne.symm hp)).mp h
    obtain ⟨hlength, hdrop⟩ := ih hrest hmatch
    exact ⟨Nat.succ_le_succ hlength, hdrop⟩

/-- How a place to go back to lies behind the place reached: the pattern between them has
no star and takes the characters of the key between them. -/
def Reached (back : Option (List Char × List Char)) (pattern key : List Char) : Prop :=
  ∀ after marked, back = some (after, marked) → '*' ∉ marked ∧
    ∃ front, '*' ∉ front ∧ after = front ++ pattern ∧ key = marked.drop front.length

/-- The star at the place to go back to can be stretched to a match. -/
def Stretches (back : Option (List Char × List Char)) : Prop :=
  ∃ after c marked, back = some (after, c :: marked) ∧ Matches ('*' :: after) marked

/-- What a stretched star matches, a star at the place reached matches. -/
theorem Reached.matches_star (h : Reached back pattern key) (hback : Stretches back) :
    key ≠ [] ∧ Matches ('*' :: pattern) key := by
  obtain ⟨after, c, marked, rfl, hmatch⟩ := hback
  obtain ⟨-, front, hfront, rfl, rfl⟩ := h _ _ rfl
  obtain ⟨run, left, rfl, hleft⟩ := S3.matches_star.mp hmatch
  obtain ⟨hlength, hdrop⟩ := hleft.split hfront
  constructor
  · rw [Ne, drop_eq_nil_iff, length_cons, length_append]
    omega
  · have hrest : left.drop front.length =
        ((c :: (run ++ left)).drop front.length).drop (run.length + 1) := by
      rw [drop_drop, Nat.add_comm, ← drop_drop]
      simp
    rw [hrest] at hdrop
    exact S3.matches_star.mpr ⟨_, _, (take_append_drop _ _).symm, hdrop⟩

theorem reached_self (after : List Char) (hkey : '*' ∉ key) :
    Reached (some (after, key)) after key := by
  rintro _ _ ⟨⟩
  exact ⟨hkey, [], by simp, rfl, rfl⟩

theorem Reached.step (h : Reached back pattern (c :: key)) (hsome : pattern ≠ [])
    (hstar : pattern.head? ≠ some '*') : Reached back pattern.tail key := by
  intro after marked hplace
  obtain ⟨hmarked, front, hfront, rfl, hkey⟩ := h after marked hplace
  obtain ⟨p, more, rfl⟩ := exists_cons_of_ne_nil hsome
  refine ⟨hmarked, front ++ [p], ?_, by simp, ?_⟩
  · simpa [hfront, eq_comm] using hstar
  · rw [length_append, ← drop_drop, ← hkey]
    rfl

theorem stretches_some {after : List Char} :
    Stretches (some (after, c :: key)) ↔ Matches ('*' :: after) key := by
  simp [Stretches]

theorem matches_nil_right : Matches pattern [] ↔ pattern.all (· == '*') = true := by
  induction pattern with
  | nil => simp [Matches]
  | cons p more ih =>
    by_cases hp : p = '*'
    · subst hp
      rw [matches_star_iff, ih]
      simp
    · simp [matches_letter hp, hp]

/-- A match with a character is one with the first character of the pattern. -/
theorem matches_head (hstar : pattern.head? ≠ some '*') :
    Matches pattern (c :: key) ↔
      (pattern.head? = some '?' ∨ pattern.head? = some c) ∧ Matches pattern.tail key := by
  cases pattern with
  | nil => simp [Matches]
  | cons p more => simp [matches_letter (show p ≠ '*' by simpa using hstar)]

/-- The loop answers whether the place reached matches, or the place to go back to with its
star stretched.  The key has no star of its own, so a star of the pattern is never taken for
a character. -/
theorem globFrom_iff (hkey : '*' ∉ key) (hback : Reached back pattern key) :
    globFrom pattern key back = true ↔ Matches pattern key ∨ Stretches back := by
  induction pattern, key, back using globFrom.induct with
  | case1 pattern back =>
    have hnone : ¬Stretches back := fun h => (hback.matches_star h).1 rfl
    rw [globFrom, or_iff_left hnone, matches_nil_right]
  | case2 pattern back c rest hhead ih =>
    rw [mem_cons, not_or] at hkey
    have hstar : pattern.head? ≠ some '*' := by grind
    rw [globFrom.eq_def]
    simp only [if_pos hhead]
    rw [ih hkey.2 (hback.step (by grind) hstar), matches_head hstar, and_iff_right hhead]
  | case3 pattern back c rest hhead hstar ih =>
    obtain ⟨more, rfl⟩ := head?_eq_some_iff.mp hstar
    have habsorbed : Stretches back → Matches ('*' :: more) (c :: rest) := by
      intro h
      obtain ⟨run, left, heq, hleft⟩ := matches_star.mp (hback.matches_star h).2
      obtain ⟨run', left', rfl, hmatch⟩ := matches_star.mp hleft
      exact matches_star.mpr ⟨run ++ run', left', by simp [heq], hmatch⟩
    rw [globFrom.eq_def]
    simp only [if_neg hhead, if_pos hstar]
    rw [ih hkey (reached_self _ hkey), stretches_some, or_iff_left_of_imp habsorbed,
      @matches_star_iff more (c :: rest)]
    simp
  | case4 pattern c rest hhead hstar after _ marked ih =>
    have hmarked := (hback _ _ rfl).1
    rw [mem_cons, not_or] at hkey hmarked
    rw [globFrom.eq_def]
    simp only [if_neg hhead, if_neg hstar]
    rw [ih hmarked.2 (reached_self after hmarked.2), stretches_some, @matches_star_iff after,
      matches_head hstar]
    simp only [hhead, false_and, false_or, Stretches]
    grind
  | case5 pattern back c rest hhead hstar hnone =>
    rw [globFrom.eq_def]
    simp only [if_neg hhead, if_neg hstar]
    rw [matches_head hstar]
    simp only [hhead, false_and, false_or, Stretches]
    grind

theorem globFrom_cons_self :
    globFrom (c :: pattern) (c :: key) back = globFrom pattern key back := by
  rw [globFrom.eq_def]
  simp

theorem globFrom_any (front : List Char) :
    globFrom (.replicate front.length '?' ++ pattern) (front ++ key) back =
      globFrom pattern key back := by
  induction front with
  | nil => rfl
  | cons c front ih =>
    rw [globFrom.eq_def]
    simpa [replicate_succ] using ih

theorem Matches.any (h : Matches pattern key) (front : List Char) :
    Matches (.replicate front.length '?' ++ pattern) (front ++ key) := by
  induction front with
  | nil => exact h
  | cons c front ih => exact (matches_letter (by decide)).mpr ⟨c, front ++ key, rfl, .inl rfl, ih⟩

/-- The loop only answers yes for a place that matches, or that a star can be stretched from;
a star of the pattern that is taken for one of the key is stretched over just that. -/
theorem matches_of_globFrom (h : globFrom pattern key back = true) :
    Matches pattern key ∨ Stretches back := by
  induction pattern, key, back using globFrom.induct with
  | case1 pattern back =>
    rw [globFrom] at h
    exact .inl (matches_nil_right.mpr h)
  | case2 pattern back c rest hhead ih =>
    rw [globFrom.eq_def] at h
    simp only [if_pos hhead] at h
    obtain ⟨p, more, rfl⟩ := exists_cons_of_ne_nil (show pattern ≠ [] by grind)
    refine (ih h).imp_left fun hrest => ?_
    by_cases hp : p = '*'
    · subst hp
      exact matches_star.mpr ⟨[c], rest, rfl, hrest⟩
    · exact (matches_letter hp).mpr ⟨c, rest, rfl, by simpa using hhead, hrest⟩
  | case3 pattern back c rest hhead hstar ih =>
    obtain ⟨more, rfl⟩ := head?_eq_some_iff.mp hstar
    rw [globFrom.eq_def] at h
    simp only [if_neg hhead, if_pos hstar] at h
    refine .inl (matches_star_iff.mpr ((ih h).imp_right fun hback => ?_))
    exact ⟨c, rest, rfl, stretches_some.mp hback⟩
  | case4 pattern c rest hhead hstar after _ marked ih =>
    rw [globFrom.eq_def] at h
    simp only [if_neg hhead, if_neg hstar] at h
    refine .inr (stretches_some.mpr (matches_star_iff.mpr ((ih h).imp_right ?_)))
    rintro ⟨after, c, marked, heq, hback⟩
    cases heq
    exact ⟨c, marked, rfl, hback⟩
  | case5 pattern back c rest hhead hstar hnone =>
    rw [globFrom.eq_def] at h
    simp only [if_neg hhead, if_neg hstar] at h
    grind

/-- What is taken for a lock key can be cut into pieces that fit one of the lock patterns,
stars in the key or not. -/
theorem lock_key_matches (locks : List String) (key : String) (h : isLockKey locks key = true) :
    ∃ pattern ∈ locks, Matches pattern.toList key.toList := by
  rw [isLockKey, Bool.and_eq_true, any_eq_true] at h
  obtain ⟨-, pattern, hpattern, hglob⟩ := h
  refine ⟨pattern, hpattern, (matches_of_globFrom hglob).resolve_right ?_⟩
  simp [Stretches]

theorem lock_key_matches_starred : ∃ pattern ∈ ["*b"], Matches pattern.toList "*b".toList := by
  have hglob : glob "*b" "*b" = true := by
    change globFrom ['*', 'b'] ['*', 'b'] none = true
    rw [globFrom_cons_self, globFrom_cons_self, globFrom.eq_def]
    rfl
  exact lock_key_matches _ _ (by simp [isLockKey, hglob])

end Synch.S3
