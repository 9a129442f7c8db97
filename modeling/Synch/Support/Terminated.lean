import Mathlib.Data.List.Lex
import Mathlib.Order.Cover

/-!
# Words written with a terminator

A sequence of words is written as one word by putting a terminator after each.
Words that hold the terminator are read back cut at it.  Over words without the
terminator the writing loses nothing: equality and extension can be read off, and
so can the lexicographic order if the terminator is below every letter.
-/

namespace Synch.Support

open List

variable {α : Type*}

/-- Each word with the terminator after it. -/
def terminated (t : α) (words : List (List α)) : List α :=
  words.flatMap fun word => word ++ [t]

@[simp] theorem terminated_nil (t : α) : terminated t [] = [] := rfl

@[simp] theorem terminated_cons (t : α) (word : List α) (words : List (List α)) :
    terminated t (word :: words) = word ++ t :: terminated t words := by
  simp [terminated]

theorem terminated_append (t : α) (front back : List (List α)) :
    terminated t (front ++ back) = terminated t front ++ terminated t back :=
  flatMap_append

variable {words : List (List α)} {t : α}

theorem terminated_eq_intercalate (t : α) (h : words ≠ []) :
    terminated t words = [t].intercalate words ++ [t] := by
  induction words with
  | nil => exact absurd rfl h
  | cons word words ih =>
    cases words with
    | nil => simp [intercalate]
    | cons next words =>
      rw [terminated_cons, ih (by simp)]
      simp [intercalate]

/-- No word of the sequence holds the terminator. -/
def Free (t : α) (words : List (List α)) : Prop :=
  ∀ word ∈ words, t ∉ word

theorem Free.of_cons {word : List α} (h : Free t (word :: words)) : t ∉ word ∧ Free t words :=
  forall_mem_cons.mp h

/-- A word without the terminator ends where the terminator stands. -/
theorem append_cons_prefix_iff {word word' rest rest' : List α} (h : t ∉ word) (h' : t ∉ word') :
    word ++ t :: rest <+: word' ++ t :: rest' ↔ word = word' ∧ rest <+: rest' := by
  induction word generalizing word' with
  | nil =>
    cases word' with
    | nil => simp
    | cons c word' =>
      have hne : t ≠ c := fun hc => h' (hc ▸ mem_cons_self)
      simp [hne]
  | cons c word ih =>
    cases word' with
    | nil =>
      have hne : c ≠ t := fun hc => h (hc ▸ mem_cons_self)
      simp [hne]
    | cons c' word' =>
      have hrest : t ∉ word := fun ht => h (mem_cons_of_mem _ ht)
      have hrest' : t ∉ word' := fun ht => h' (mem_cons_of_mem _ ht)
      rw [cons_append, cons_append, cons_prefix_cons, ih hrest hrest', cons.injEq, and_assoc]

theorem terminated_prefix_iff {words' : List (List α)} (h : Free t words) (h' : Free t words') :
    terminated t words <+: terminated t words' ↔ words <+: words' := by
  induction words generalizing words' with
  | nil => simp
  | cons word words ih =>
    cases words' with
    | nil => simp
    | cons word' words' =>
      rw [terminated_cons, terminated_cons,
        append_cons_prefix_iff h.of_cons.1 h'.of_cons.1,
        ih h.of_cons.2 h'.of_cons.2, cons_prefix_cons]

theorem terminated_inj {words' : List (List α)} (h : Free t words) (h' : Free t words') :
    terminated t words = terminated t words' ↔ words = words' := by
  constructor
  · intro heq
    have hextends := (terminated_prefix_iff h h').mp (heq ▸ prefix_refl _)
    have hextends' := (terminated_prefix_iff h' h).mp (heq ▸ prefix_refl _)
    exact hextends.eq_of_length_le hextends'.length_le
  · rintro rfl
    rfl

section Cut

variable [BEq α] [LawfulBEq α]

def cutAt (t : α) (words : List (List α)) : List (List α) :=
  words.flatMap fun word => word.splitOn t

theorem terminated_splitOn (t : α) (word : List α) :
    terminated t (word.splitOn t) = word ++ [t] := by
  have hne : word.splitOn t ≠ [] := splitOnP_ne_nil _ _
  rw [terminated_eq_intercalate t hne, intercalate_splitOn]

/-- Cutting words at the terminator does not show in the writing. -/
theorem terminated_cutAt (t : α) (words : List (List α)) :
    terminated t (cutAt t words) = terminated t words := by
  induction words with
  | nil => rfl
  | cons word words ih =>
    rw [cutAt, flatMap_cons, terminated_append, terminated_splitOn]
    change _ ++ terminated t (cutAt t words) = _
    rw [ih]
    simp

theorem notMem_of_mem_splitOn {word piece : List α} (h : piece ∈ word.splitOn t) : t ∉ piece := by
  induction word generalizing piece with
  | nil =>
    rw [splitOn_nil, mem_singleton] at h
    simp [h]
  | cons c word ih =>
    rw [splitOn_cons_eq_if_modifyHead] at h
    split at h
    · obtain rfl | h := mem_cons.mp h
      · simp
      · exact ih h
    · rename_i hc
      obtain ⟨first, rest, hsplit⟩ :=
        exists_cons_of_ne_nil (splitOnP_ne_nil (· == t) word)
      change word.splitOn t = first :: rest at hsplit
      rw [hsplit, modifyHead_cons] at h
      obtain rfl | h := mem_cons.mp h
      · have hfirst := ih (hsplit ▸ mem_cons_self)
        simp only [beq_iff_eq] at hc
        simpa [mem_cons, hfirst] using Ne.symm hc
      · exact ih (hsplit ▸ mem_cons_of_mem _ h)

theorem free_cutAt (t : α) (words : List (List α)) : Free t (cutAt t words) := by
  intro piece hpiece
  obtain ⟨word, -, hpiece⟩ := mem_flatMap.mp hpiece
  exact notMem_of_mem_splitOn hpiece

theorem cutAt_of_free (h : Free t words) : cutAt t words = words := by
  exact (terminated_inj (free_cutAt t words) h).mp (terminated_cutAt t words)

end Cut

section Order

variable [LinearOrder α]

variable {low seq : List α}

theorem append_cons_lt_iff {word word' rest rest' : List α} (h : ∀ c ∈ word, t < c)
    (h' : ∀ c ∈ word', t < c) :
    word ++ t :: rest < word' ++ t :: rest' ↔ word < word' ∨ word = word' ∧ rest < rest' := by
  induction word generalizing word' with
  | nil =>
    cases word' with
    | nil => simp
    | cons c word' =>
      have hlt := h' c mem_cons_self
      simp [cons_lt_cons_iff, hlt]
  | cons c word ih =>
    cases word' with
    | nil =>
      have hlt := h c mem_cons_self
      simp [cons_lt_cons_iff, hlt.not_gt, hlt.ne']
    | cons c' word' =>
      have hword : ∀ d ∈ word, t < d := fun d hd => h d (mem_cons_of_mem _ hd)
      have hword' : ∀ d ∈ word', t < d := fun d hd => h' d (mem_cons_of_mem _ hd)
      rw [cons_append, cons_append, cons_lt_cons_iff, ih hword hword', cons_lt_cons_iff, cons.injEq]
      tauto

/-- Under a terminator below every letter, the writing keeps the order. -/
theorem terminated_lt_iff {words' : List (List α)} (h : ∀ word ∈ words, ∀ c ∈ word, t < c)
    (h' : ∀ word ∈ words', ∀ c ∈ word, t < c) :
    terminated t words < terminated t words' ↔ words < words' := by
  induction words generalizing words' with
  | nil =>
    cases words' with
    | nil => simp
    | cons word' words' => cases word' <;> simp
  | cons word words ih =>
    cases words' with
    | nil => simp
    | cons word' words' =>
      obtain ⟨hword, hwords⟩ := forall_mem_cons.mp h
      obtain ⟨hword', hwords'⟩ := forall_mem_cons.mp h'
      rw [terminated_cons, terminated_cons, append_cons_lt_iff hword hword',
        ih hwords hwords', cons_lt_cons_iff]

theorem le_of_prefix {high : List α} (h : low <+: high) : low ≤ high := by
  obtain ⟨rest, rfl⟩ := h
  have hle : ¬low ++ rest < low := @List.le_append_left α _ inferInstance low rest
  exact not_lt.mp hle

/-- What lies between a sequence and one of its extensions extends it too. -/
theorem prefix_of_between {middle high : List α} (hlow : low ≤ middle) (hhigh : middle ≤ high)
    (hextends : low <+: high) : low <+: middle := by
  induction low generalizing middle high with
  | nil => exact nil_prefix
  | cons c low ih =>
    obtain ⟨rest, rfl⟩ := hextends
    cases middle with
    | nil => exact absurd hlow (by simp)
    | cons d middle =>
      rw [← not_lt, cons_lt_cons_iff, not_or, not_and] at hlow
      rw [cons_append, ← not_lt, cons_lt_cons_iff, not_or, not_and] at hhigh
      obtain rfl : c = d := le_antisymm (not_lt.mp hlow.1) (not_lt.mp hhigh.1)
      rw [cons_prefix_cons]
      exact ⟨rfl, ih (not_lt.mp (hlow.2 rfl)) (not_lt.mp (hhigh.2 rfl)) (prefix_append low rest)⟩

/-- Below a top letter, the sequences from one up to it with the top letter appended
are its extensions. -/
theorem between_iff_prefix {top : α} (htop : ∀ c ∈ seq, c < top) :
    low ≤ seq ∧ seq < low ++ [top] ↔ low <+: seq := by
  constructor
  · rintro ⟨hlow, hhigh⟩
    exact prefix_of_between hlow hhigh.le (prefix_append low [top])
  · rintro ⟨rest, rfl⟩
    constructor
    · exact le_of_prefix (prefix_append low rest)
    · apply append_left_lt
      cases rest with
      | nil => simp
      | cons c rest =>
        have hc : c < top := htop c (by simp)
        simp [cons_lt_cons_iff, hc]

/-- Between a sequence and the one with its last letter replaced by the next letter
lie its extensions. -/
theorem between_covBy_iff_prefix {c d : α} (hnext : c ⋖ d) :
    low ++ [c] ≤ seq ∧ seq < low ++ [d] ↔ low ++ [c] <+: seq := by
  induction low generalizing seq with
  | nil =>
    cases seq with
    | nil => simp
    | cons e seq =>
      have hle : [c] ≤ e :: seq ↔ c ≤ e := by
        rw [← not_lt, ← not_lt, cons_lt_cons_iff]
        simp
      have hlt : e :: seq < [d] ↔ e < d := by
        rw [cons_lt_cons_iff]
        simp
      have hbetween : c ≤ e ∧ e < d ↔ c = e := by
        constructor
        · rintro ⟨hce, hed⟩
          exact le_antisymm hce (not_lt.mp fun hlt => hnext.2 hlt hed)
        · rintro rfl
          exact ⟨le_rfl, hnext.1⟩
      rw [nil_append, nil_append, hle, hlt, hbetween, cons_prefix_cons]
      simp
  | cons b low ih =>
    cases seq with
    | nil => simp
    | cons e seq =>
      have hle : b :: (low ++ [c]) ≤ e :: seq ↔ b < e ∨ b = e ∧ low ++ [c] ≤ seq := by
        rw [← not_lt, cons_lt_cons_iff, ← not_lt]
        grind
      rw [cons_append, cons_append, hle, cons_lt_cons_iff, cons_prefix_cons, ← ih]
      grind

/-- Past the greatest letter nothing but extensions is left. -/
theorem append_top_le_iff_prefix {top : α} (htop : ∀ c, c ≤ top) (hlow : low <+: seq) :
    low ++ [top] ≤ seq ↔ low ++ [top] <+: seq := by
  refine ⟨fun hle => ?_, le_of_prefix⟩
  obtain ⟨rest, rfl⟩ := hlow
  cases rest with
  | nil =>
    rw [append_nil] at hle
    have hlt : low ++ [] < low ++ [top] := append_left_lt (by simp)
    rw [append_nil] at hlt
    exact absurd hlt (not_lt.mpr hle)
  | cons c rest =>
    have hc : c = top := by
      by_contra hne
      have hlt : low ++ c :: rest < low ++ [top] := by
        apply append_left_lt
        simp [cons_lt_cons_iff, lt_of_le_of_ne (htop c) hne]
      exact absurd hlt (not_lt.mpr hle)
    rw [hc, prefix_append_right_inj]
    simp

end Order

end Synch.Support
