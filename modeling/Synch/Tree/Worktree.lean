import Mathlib.Data.List.TakeDrop
import Synch.Support.Terminated
import Synch.Support.Text
import Synch.Tree.Git

/-!
# Private directories of linked worktrees

A linked worktree has a private directory `worktrees/<name>` inside a git directory.  The
classifier opens it as a root of its own; whether a root is one is asked later of its text
alone.
-/

namespace Synch.Tree

open List Synch.Support

/-- Whether a path's root is taken for a linked worktree's private directory. -/
def GitPath.inWorktreePrivateDir (git : GitPath) : Bool :=
  (((rsplitOnce '/' git.root.toList).bind fun split => rsplitOnce '/' split.1).any
      fun split => split.2 == "worktrees".toList) ||
    "worktrees/".toList.isPrefixOf git.root.toList

section Roots

variable (components : List (List Char))

/-- A component that opens a git directory of its own. -/
def opensRoot (i : Nat) : Bool :=
  i < components.length - 1 && ".git".toList.isSuffixOf (componentName components i)

/-- The git directories a path leads through, by the number of components they take. -/
inductive IsRoot : Nat → Prop where
  | own {i : Nat} : (∀ j < i, opensRoot components j = false) → opensRoot components i = true →
      IsRoot (i + 1)
  | worktree {i : Nat} : IsRoot i → componentName components i = "worktrees".toList →
      i + 2 ≤ components.length - 1 → IsRoot (i + 2)
  | submodule {i : Nat} : IsRoot i → componentName components i = "modules".toList →
      i + 2 ≤ components.length - 1 →
      IsRoot (submoduleEnd components components.length (i + 1) + 1)

/-- The text is a root, and the pair that a worktree has directly inside it. -/
def OpenedByWorktree (root : List Char) : Prop :=
  ∃ i, IsRoot components i ∧ componentName components i = "worktrees".toList ∧
    i + 2 ≤ components.length - 1 ∧ root = joinSlash (components.take (i + 2))

variable {components} {i rootEnd : Nat}

theorem IsRoot.pos (h : IsRoot components i) : 0 < i := by
  cases h <;> omega

theorem isRoot_of_findRoot {found : Option Nat} {fuel : Nat}
    (h : findRoot components fuel i found = .ended (some rootEnd))
    (hnone : found = none → ∀ j < i, opensRoot components j = false)
    (hsome : ∀ outer, found = some outer → IsRoot components outer) :
    IsRoot components rootEnd := by
  fun_induction findRoot components fuel i found with
  | case1 | case9 =>
    cases h
    exact hsome _ rfl
  | case2 => cases h
  | case3 | case4 =>
    rename_i ih
    refine ih h nofun fun outer houter => Option.some.inj houter ▸ .own (hnone rfl) ?_
    simp_all only [opensRoot]
    grind
  | case5 fuel i last hi component hplain hbare ih =>
    refine ih h (fun _ j hj => ?_) nofun
    obtain hj | rfl := Nat.lt_succ_iff_lt_or_eq.mp hj
    · exact hnone rfl j hj
    · rw [opensRoot, Bool.and_eq_false_imp]
      intro hlast
      by_contra hends
      have hsuffix : ".git".toList <:+ component := by simpa using hends
      have hlength := hsuffix.length_le
      have hne : ".git".toList.length ≠ component.length :=
        fun heq => hplain (by simpa using (hsuffix.eq_of_length heq).symm)
      simp_all
      omega
  | case6 fuel i last hi component outer first hopens ih =>
    refine ih h nofun fun _ hend => Option.some.inj hend ▸ ?_
    simp only [Bool.and_eq_true, beq_iff_eq, decide_eq_true_eq, first] at hopens
    obtain ⟨⟨rfl, hname⟩, hlast⟩ := hopens
    exact .worktree (hsome _ rfl) hname hlast
  | case7 fuel i last hi component outer first _ hopens _ ih =>
    refine ih h nofun fun _ hend => Option.some.inj hend ▸ ?_
    simp only [Bool.and_eq_true, beq_iff_eq, decide_eq_true_eq, first] at hopens
    obtain ⟨⟨rfl, hname⟩, hlast⟩ := hopens
    exact .submodule (hsome _ rfl) hname hlast
  | case8 fuel i last hi component outer first _ _ ih => exact ih h nofun hsome

end Roots

/-- The root lies directly in a directory named `worktrees`, or anywhere in one at the top. -/
def LiesInWorktrees (root : List Char) : Prop :=
  (∃ outer name, '/' ∉ name ∧ root = outer ++ "/worktrees/".toList ++ name) ∨
    "worktrees/".toList <+: root

theorem rsplitOnce_eq_some_iff {c : Char} {text front after : List Char} :
    rsplitOnce c text = some (front, after) ↔ text = front ++ c :: after ∧ c ∉ after := by
  have hsplit : rsplitOnce c text =
      (splitOnce c text.reverse).map fun split => (split.2.reverse, split.1.reverse) := by
    have hne : (fun d : Char => decide (d ≠ c)) = (· != c) := by
      funext d
      exact Bool.eq_iff_iff.mpr (by simp)
    rw [rsplitOnce, splitOnce, span_eq_takeWhile_dropWhile, hne]
    cases text.reverse.dropWhile (· != c) <;> rfl
  rw [hsplit, Option.map_eq_some_iff]
  constructor
  · rintro ⟨⟨name, value⟩, hsome, ⟨⟩⟩
    obtain ⟨htext, hname⟩ := splitOnce_eq_some_iff.mp hsome
    exact ⟨by simpa using congrArg reverse htext, by simpa using hname⟩
  · rintro ⟨rfl, hafter⟩
    refine ⟨(after.reverse, front.reverse), splitOnce_eq_some_iff.mpr ⟨by simp, ?_⟩, by simp⟩
    simpa using hafter

theorem inWorktreePrivateDir_iff {git : GitPath} :
    git.inWorktreePrivateDir = true ↔ LiesInWorktrees git.root.toList := by
  simp only [GitPath.inWorktreePrivateDir, LiesInWorktrees, Bool.or_eq_true, Option.any_eq_true,
    Option.bind_eq_some_iff, beq_iff_eq, isPrefixOf_iff_prefix]
  refine or_congr_left ⟨?_, ?_⟩
  · rintro ⟨⟨outer, _⟩, ⟨⟨parent, name⟩, hroot, hparent⟩, rfl⟩
    obtain ⟨hroot, hname⟩ := rsplitOnce_eq_some_iff.mp hroot
    obtain ⟨rfl, -⟩ := rsplitOnce_eq_some_iff.mp hparent
    exact ⟨outer, name, hname, by simp [hroot]⟩
  · rintro ⟨outer, name, hname, hroot⟩
    refine ⟨(outer, "worktrees".toList), ⟨(outer ++ "/worktrees".toList, name), ?_, ?_⟩, rfl⟩
    · exact rsplitOnce_eq_some_iff.mpr ⟨by simp [hroot], hname⟩
    · exact rsplitOnce_eq_some_iff.mpr ⟨rfl, by decide⟩

theorem OpenedByWorktree.lies {components : List (List Char)} {root : List Char}
    (hfree : Free '/' components) (h : OpenedByWorktree components root) :
    LiesInWorktrees root := by
  obtain ⟨i, hroot, hname, hlast, rfl⟩ := h
  have hpos := hroot.pos
  have hget {j : Nat} (hj : j < components.length) : componentName components j = components[j] := by
    simp [componentName, hj]
  have htake : components.take (i + 2) =
      components.take i ++ ["worktrees".toList, componentName components (i + 1)] := by
    rw [← hname, hget (by omega), hget (by omega), take_succ_eq_append_getElem (by omega),
      take_succ_eq_append_getElem (by omega), append_assoc]
    rfl
  refine .inl ⟨joinSlash (components.take i), componentName components (i + 1), ?_, ?_⟩
  · rw [hget (by omega)]
    exact hfree _ (getElem_mem _)
  · have hne : components.take i ≠ [] := by
      rw [Ne, take_eq_nil_iff, ← length_eq_zero_iff]
      omega
    refine append_cancel_right (?_ : _ ++ ['/'] = _ ++ ['/'])
    unfold joinSlash
    rw [← terminated_eq_intercalate '/' (by simp [htake]), htake, terminated_append,
      terminated_eq_intercalate '/' hne]
    simp

end Synch.Tree
