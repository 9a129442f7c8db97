import Mathlib.Data.List.Forall2

/-!
# Unambiguous writing

A value is written unambiguously if what is written can be told from any other writing that
starts the same text, as long as what follows is of the right kind.  A sequence of such values
with a separator between them and a closing mark is written unambiguously too.
-/

namespace Synch.Support

open List

variable {α γ : Type*} (Writes : α → List γ → Prop) (Follow : List γ → Prop)

/-- The beginning of a text that is written for the value is written for no other. -/
def Unambiguous (x : α) : Prop :=
  ∀ {y : α} {a b r s : List γ},
    Writes x a → Writes y b → Follow r → Follow s → a ++ r = b ++ s → x = y ∧ r = s

/-- Texts with a separator before each, and a closing mark. -/
def separatedTail (comma close : γ) (texts : List (List γ)) : List γ :=
  (texts.flatMap fun text => comma :: text) ++ [close]

/-- Texts with a separator between them, and a closing mark. -/
def separated (comma close : γ) : List (List γ) → List γ
  | [] => [close]
  | text :: texts => text ++ separatedTail comma close texts

section Separated

variable {Writes Follow} {comma close : γ}

theorem separatedTail_cons (text : List γ) (texts : List (List γ)) :
    separatedTail comma close (text :: texts) =
      comma :: (text ++ separatedTail comma close texts) := by
  simp [separatedTail]

theorem separated_eq_intercalate (texts : List (List γ)) :
    separated comma close texts = [comma].intercalate texts ++ [close] := by
  cases texts with
  | nil => rfl
  | cons text texts =>
    rw [separated]
    induction texts generalizing text with
    | nil => simp [separatedTail, intercalate]
    | cons next texts ih =>
      rw [separatedTail_cons, ih]
      simp [intercalate]

theorem follow_separatedTail (hcomma : ∀ rest, Follow (comma :: rest))
    (hclose : ∀ rest, Follow (close :: rest)) (texts : List (List γ)) (rest : List γ) :
    Follow (separatedTail comma close texts ++ rest) := by
  cases texts with
  | nil => exact hclose rest
  | cons text texts =>
    rw [separatedTail_cons]
    exact hcomma _

theorem separatedTail_unambiguous (hne : comma ≠ close) (hcomma : ∀ rest, Follow (comma :: rest))
    (hclose : ∀ rest, Follow (close :: rest)) {xs ys : List α} {as bs : List (List γ)}
    {r s : List γ} (hxs : ∀ x ∈ xs, Unambiguous Writes Follow x) (has : List.Forall₂ Writes xs as)
    (hbs : List.Forall₂ Writes ys bs)
    (h : separatedTail comma close as ++ r = separatedTail comma close bs ++ s) :
    xs = ys ∧ r = s := by
  induction has generalizing ys bs with
  | nil =>
    cases hbs with
    | nil => exact ⟨rfl, (cons.inj h).2⟩
    | cons _ _ =>
      rw [separatedTail_cons] at h
      exact absurd (cons.inj h).1.symm hne
  | @cons x a xs as hx has ih =>
    cases hbs with
    | nil =>
      rw [separatedTail_cons] at h
      exact absurd (cons.inj h).1 hne
    | @cons y b ys bs hy hbs =>
      rw [separatedTail_cons, separatedTail_cons, cons_append, cons_append,
        append_assoc, append_assoc] at h
      obtain ⟨rfl, hrest⟩ := hxs x mem_cons_self hx hy
        (follow_separatedTail hcomma hclose as r) (follow_separatedTail hcomma hclose bs s)
        (cons.inj h).2
      obtain ⟨rfl, hrs⟩ := ih (fun x hx => hxs x (mem_cons_of_mem _ hx)) hbs hrest
      exact ⟨rfl, hrs⟩

/-- A sequence is written unambiguously if its values are and none of them starts with the
closing mark. -/
theorem separated_unambiguous (hne : comma ≠ close) (hcomma : ∀ rest, Follow (comma :: rest))
    (hclose : ∀ rest, Follow (close :: rest))
    (hstart : ∀ {x a} rest, Writes x a → (a ++ rest).head? ≠ some close) {xs ys : List α}
    {as bs : List (List γ)} {r s : List γ} (hxs : ∀ x ∈ xs, Unambiguous Writes Follow x)
    (has : List.Forall₂ Writes xs as) (hbs : List.Forall₂ Writes ys bs)
    (h : separated comma close as ++ r = separated comma close bs ++ s) : xs = ys ∧ r = s := by
  cases has with
  | nil =>
    cases hbs with
    | nil => exact ⟨rfl, (cons.inj h).2⟩
    | @cons y b ys bs hy hbs =>
      rw [separated, separated, append_assoc] at h
      exact absurd (congrArg head? h.symm) (hstart _ hy)
  | @cons x a xs as hx has =>
    cases hbs with
    | nil =>
      rw [separated, separated, append_assoc] at h
      exact absurd (congrArg head? h) (hstart _ hx)
    | @cons y b ys bs hy hbs =>
      refine separatedTail_unambiguous hne hcomma hclose hxs (.cons hx has) (.cons hy hbs) ?_
      rw [separatedTail_cons, separatedTail_cons]
      exact congrArg (comma :: ·) h

end Separated

end Synch.Support
