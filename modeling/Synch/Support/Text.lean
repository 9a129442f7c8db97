import Mathlib.Data.List.Basic

/-!
# Words and fields of a text

A text is cut into words at its blanks, and a word into a name and a value at its
first separator.  Both cuts undo the joins that writers make.
-/

namespace Synch.Support

open List

variable {α : Type*}

/-- The maximal runs without a blank. -/
def words (blank : α → Bool) (text : List α) : List (List α) :=
  (text.splitOnP blank).filter fun word => !word.isEmpty

/-- A word: not empty, and without a blank. -/
def IsWord (blank : α → Bool) (word : List α) : Prop :=
  word ≠ [] ∧ ∀ c ∈ word, blank c = false

variable {blank : α → Bool} {separator : α}

theorem words_of_isWord {word : List α} (h : IsWord blank word) : words blank word = [word] := by
  rw [words, splitOnP_eq_singleton h.2]
  simp [h.1]

theorem words_append_cons {space : α} (hspace : blank space = true) (front back : List α) :
    words blank (front ++ space :: back) = words blank front ++ words blank back := by
  rw [words, splitOnP_append_cons front back hspace, filter_append]
  rfl

/-- The words of words written with a blank before each but the first. -/
theorem words_flatMap {space : α} (hspace : blank space = true) {first : List α}
    (hfirst : IsWord blank first) {rest : List (List α)}
    (hrest : ∀ word ∈ rest, IsWord blank word) :
    words blank (first ++ rest.flatMap fun word => space :: word) = first :: rest := by
  induction rest generalizing first with
  | nil => simpa using words_of_isWord hfirst
  | cons word rest ih =>
    have hword := hrest word mem_cons_self
    have htail := ih hword fun other hother => hrest other (mem_cons_of_mem _ hother)
    rw [flatMap_cons, cons_append, words_append_cons hspace, words_of_isWord hfirst, htail]
    rfl

variable [DecidableEq α]

/-- The text before the first separator and the text after it. -/
def splitOnce (separator : α) (text : List α) : Option (List α × List α) :=
  match text.dropWhile (· ≠ separator) with
  | [] => none
  | _ :: rest => some (text.takeWhile (· ≠ separator), rest)

theorem splitOnce_append_cons {name : List α} (hname : separator ∉ name) (value : List α) :
    splitOnce separator (name ++ separator :: value) = some (name, value) := by
  have hall : ∀ c ∈ name, decide (c ≠ separator) = true := by
    intro c hc
    simpa using fun h : c = separator => hname (h ▸ hc)
  rw [splitOnce, dropWhile_append_of_pos hall, takeWhile_append_of_pos hall]
  simp

theorem splitOnce_eq_none_iff {text : List α} :
    splitOnce separator text = none ↔ separator ∉ text := by
  constructor
  · intro h hmem
    obtain ⟨name, value, rfl, hname⟩ := eq_append_cons_of_mem hmem
    rw [splitOnce_append_cons hname] at h
    cases h
  · intro h
    have hall : ∀ c ∈ text, decide (c ≠ separator) = true := by
      intro c hc
      simpa using fun heq : c = separator => h (heq ▸ hc)
    have hdrop := @List.dropWhile_append_of_pos α (fun c => decide (c ≠ separator)) text [] hall
    rw [append_nil, dropWhile_nil] at hdrop
    rw [splitOnce, hdrop]

theorem splitOnce_eq_some_iff {text name value : List α} :
    splitOnce separator text = some (name, value) ↔
      text = name ++ separator :: value ∧ separator ∉ name := by
  constructor
  · intro h
    have hmem : separator ∈ text := by
      by_contra hnot
      rw [splitOnce_eq_none_iff.mpr hnot] at h
      cases h
    obtain ⟨first, rest, rfl, hfirst⟩ := eq_append_cons_of_mem hmem
    rw [splitOnce_append_cons hfirst, Option.some.injEq, Prod.mk.injEq] at h
    obtain ⟨rfl, rfl⟩ := h
    exact ⟨rfl, hfirst⟩
  · rintro ⟨rfl, hname⟩
    exact splitOnce_append_cons hname value

end Synch.Support
