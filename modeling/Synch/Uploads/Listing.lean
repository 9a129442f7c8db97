import Mathlib.Data.List.Infix
import Mathlib.Data.String.Basic
import Synch.Uploads.Store

/-!
# Listing the open uploads

The uploads of a space are picked by a `LIKE` pattern.  The wildcards of the prefix are
escaped, but `LIKE` takes an ASCII letter for the same letter in the other case.
-/

namespace Synch.Uploads

open List Synch.Support

/-- Escapes the wildcards of a prefix. -/
def likeEscape (start : List Char) : List Char :=
  start.flatMap fun c => if c ∈ ['%', '_', '\\'] then ['\\', c] else [c]

/-- Whether a text matches a pattern of SQLite's `LIKE` with a backslash to escape. -/
def like : List Char → List Char → Bool
  | [], text => text.isEmpty
  | ['\\'], _ => false
  | '\\' :: c :: pattern, text =>
    text.head?.any (fun d => c.toLower == d.toLower) && like pattern text.tail
  | c :: pattern, text =>
    if c = '%' then text.tails.any fun rest => like pattern rest
    else text.head?.any (fun d => c == '_' || c.toLower == d.toLower) && like pattern text.tail

/-- An upload of the space that the principal opened and that still accepts parts. -/
def IsOpen (space : String) (principal : Option String) (row : String × Upload) : Prop :=
  row.2.space = space ∧ row.2.state = .opened ∧ row.2.principal = principal

instance (space : String) (principal : Option String) :
    DecidablePred (IsOpen space principal) := fun _ =>
  inferInstanceAs (Decidable (_ ∧ _ ∧ _))

/-- The open uploads under a prefix, from the rows of all uploads with their ids. -/
def openUploads (rows : List (String × Upload)) (space start : String)
    (principal : Option String) : List (String × Upload) :=
  sortBy (fun row => toLex (row.2.path, row.1)) (rows.filter fun row =>
    decide (IsOpen space principal row) &&
      like (likeEscape start.toList ++ ['%']) row.2.path.toList)

/-- The escaped prefix matches a letter in either case, and nothing else but itself. -/
theorem like_likeEscape_iff {start path : List Char} :
    like (likeEscape start ++ ['%']) path = true ↔
      start.map Char.toLower <+: path.map Char.toLower := by
  induction start generalizing path with
  | nil => simp [likeEscape, like, mem_tails]
  | cons c start ih =>
    have hstep : like (likeEscape (c :: start) ++ ['%']) path =
        (path.head?.any (fun d => c.toLower == d.toLower) &&
          like (likeEscape start ++ ['%']) path.tail) := by
      by_cases hwild : c ∈ ['%', '_', '\\']
      · simp only [likeEscape, flatMap_cons, if_pos hwild]
        rfl
      · rw [likeEscape, flatMap_cons, if_neg hwild]
        simp only [mem_cons, not_mem_nil, or_false, not_or] at hwild
        change like (c :: (likeEscape start ++ ['%'])) path = _
        have hother : (c == '_') = false := beq_false_of_ne hwild.2.1
        rw [like] <;> simp [hwild, hother]
    rw [hstep]
    cases path with
    | nil => simp
    | cons d path => simp [cons_prefix_cons, ih]

end Synch.Uploads
