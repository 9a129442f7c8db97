import Synch.Hash
import Synch.Support.Fallible
import Synch.Proofs.Ranges
import Synch.Proofs.Subtree

/-!
# The proof walk

Both sides of a proof exchange descend an object's tree in the same order.  The
provider loads each node's pair from its outboard, the requester takes it off
the received bytes and checks it against the value its parent committed to.
The tree hash and the node names are parameters.
-/

namespace Synch.Proofs

def proofNodeLen : Nat := 64

def maxProofNodes : Nat := 8192

/-- The chaining value of a subtree. -/
structure Cv where
  bytes : List UInt8
  length_bytes : bytes.length = 32
deriving Repr

instance : DecidableEq Cv := fun a b =>
  decidable_of_iff (a.bytes = b.bytes) (by cases a; cases b; simp)

/-- How two chaining values combine, below and at the root. -/
structure TreeHash where
  join : Cv → Cv → Cv
  joinRoot : Cv → Cv → Hash

abbrev NodePair := Cv × Cv

/-- A node's pair as it is sent. -/
def pairBytes (pair : NodePair) : List UInt8 :=
  pair.1.bytes ++ pair.2.bytes

def readPair (bytes : List UInt8) : Option (NodePair × List UInt8) :=
  if h : proofNodeLen ≤ bytes.length then
    have hlength : 64 ≤ bytes.length := h
    some
      ((⟨bytes.take 32, by rw [List.length_take]; omega⟩,
        ⟨(bytes.drop 32).take 32, by rw [List.length_take, List.length_drop]; omega⟩),
        bytes.drop proofNodeLen)
  else
    none

structure ProvenSubtree where
  start : Nat
  groups : Nat
  cv : Cv
  whole : Bool
deriving DecidableEq, Repr

inductive ProofError (Node : Type) where
  | noOutboardEntry (node : Node)
  | nodeMismatch (group : Nat)
  | rootMismatch
  | noChildren
  | overBudget (level budget group : Nat)
  | notWholeNodes (length : Nat)
  | endedEarly
  | beyondWindow
  | trailingBytes (count : Nat)
  | otherObject (root : Hash) (size expected : Nat)
deriving DecidableEq, Repr

def ProofError.reason {Node : Type} [ToString Node] : ProofError Node → String
  | .noOutboardEntry node => "no outboard entry for node " ++ toString node
  | .nodeMismatch group =>
    "proof node at group " ++ toString group ++ " does not hash to the value its parent proved"
  | .rootMismatch => "the top proof node does not hash to the root"
  | .noChildren => "a multi-group subtree has no children"
  | .overBudget level budget group =>
    "a proof over these ranges at level " ++ toString level ++ " exceeds the " ++
      toString budget ++ "-node budget (stopped at group " ++ toString group ++
      "); the requester must split the request"
  | .notWholeNodes length =>
    "a proof of " ++ toString length ++ " bytes is not whole nodes"
  | .endedEarly => "the proof ended before the ranges it claimed"
  | .beyondWindow => "the proof claims more ranges than one window can cover"
  | .trailingBytes count =>
    "the proof carries " ++ toString count ++ " bytes the ranges it claimed do not account for"
  | .otherObject root size expected =>
    "a proof of " ++ root.toHex ++ " at " ++ toString size ++
      " bytes cannot join a proof of this object at " ++ toString expected ++ " bytes"

/-- One side of a proof exchange.  `load` supplies the pair of each node. -/
structure Walk (Node σ : Type) where
  hash : TreeHash
  numbering : Numbering Node
  root : Hash
  size : Nat
  ranges : ChunkRanges
  level : Nat
  budget : Nat
  verify : Bool
  load : Node → σ → Except (ProofError Node) (NodePair × σ)

/-- How far a walk has come. -/
structure Progress (Node σ : Type) where
  loader : σ
  nodes : List (Node × NodePair) := []
  proven : List ProvenSubtree := []
  truncatedAt : Option Nat := none

variable {Node σ : Type}

/-- Record a loaded node. -/
def Progress.push
    (progress : Progress Node σ) (loader : σ) (node : Node) (pair : NodePair) :
    Progress Node σ :=
  { progress with loader := loader, nodes := progress.nodes ++ [(node, pair)] }

namespace Walk

variable (w : Walk Node σ)

variable (s : Subtree Node)

/-- Whether the descent stops at a subtree: a single group, or no wider than the
level asked for. -/
def stopsAt : Bool :=
  s.groups == 1 || decide (s.span ≤ 2 ^ min w.level 63)

/-- Report a subtree whose value its parent proved. -/
def report (expected : Option Cv) (progress : Progress Node σ) : Progress Node σ :=
  match expected with
  | none => progress
  | some cv =>
    { progress with
      proven := progress.proven ++ [⟨s.start, s.groups, cv, s.isWhole w.size⟩] }

/-- Check a pair against the value its parent proved, or against the root. -/
def check (expected : Option Cv) (pair : NodePair) : Except (ProofError Node) Unit :=
  if w.verify then
    match expected with
    | some cv =>
      if w.hash.join pair.1 pair.2 = cv then .ok ()
      else .error (.nodeMismatch s.start)
    | none =>
      if w.hash.joinRoot pair.1 pair.2 = w.root then .ok () else .error .rootMismatch
  else
    .ok ()

/-- Load and check the pair of a node, and record it. -/
def visit (expected : Option Cv)
    (progress : Progress Node σ) :
    Except (ProofError Node) (NodePair × Progress Node σ) := do
  let (pair, loader) ← w.load s.node progress.loader
  w.check s expected pair
  return (pair, progress.push loader s.node pair)

/-- Walk one subtree, with the chaining value its parent proved for it. -/
def descend
    (w : Walk Node σ) (s : Subtree Node) (expected : Option Cv)
    (progress : Progress Node σ) :
    Except (ProofError Node) (Progress Node σ) :=
  if progress.truncatedAt.isSome then
    .ok progress
  else if !w.ranges.overlaps s.start s.stop then
    .ok progress
  else if w.stopsAt s then
    .ok (w.report s expected progress)
  else if w.budget ≤ progress.nodes.length then
    .ok { progress with truncatedAt := some s.start }
  else
    (w.visit s expected progress).bind fun visited =>
      match _hchildren : s.children w.numbering with
      | none => .error .noChildren
      | some (left, right) =>
        (w.descend left (some visited.1.1) visited.2).bind fun progress =>
          w.descend right (some visited.1.2) progress
termination_by s.level
decreasing_by
  · exact (Subtree.splits_of_children ‹_›).left_level
  · exact (Subtree.splits_of_children ‹_›).right_level

/-- Run one proof walk over an object's tree. -/
def walkProof (loader : σ) : Except (ProofError Node) (Progress Node σ) :=
  if 0 < w.size ∧ w.ranges.isEmpty = false then
    w.descend (.rootOf w.numbering w.size) none { loader := loader }
  else
    .ok { loader := loader }

variable {w : Walk Node σ} {s : Subtree Node} {progress : Progress Node σ}

theorem descend_truncated (h : progress.truncatedAt.isSome = true) (expected : Option Cv) :
    w.descend s expected progress = .ok progress := by
  rw [descend, if_pos h]

theorem descend_outside (h : w.ranges.overlaps s.start s.stop = false) (expected : Option Cv) :
    w.descend s expected progress = .ok progress := by
  rw [descend]
  split
  · rfl
  · rw [if_pos (by simp [h])]

section

variable (htruncated : progress.truncatedAt = none)
include htruncated

section

variable (hoverlaps : w.ranges.overlaps s.start s.stop = true)
include hoverlaps

theorem descend_stops (hstops : w.stopsAt s = true) (expected : Option Cv) :
    w.descend s expected progress = .ok (w.report s expected progress) := by
  rw [descend, if_neg (by simp [htruncated]), if_neg (by simp [hoverlaps]), if_pos hstops]

theorem descend_overBudget (hstops : w.stopsAt s = false)
    (hbudget : w.budget ≤ progress.nodes.length) (expected : Option Cv) :
    w.descend s expected progress = .ok { progress with truncatedAt := some s.start } := by
  rw [descend, if_neg (by simp [htruncated]), if_neg (by simp [hoverlaps]),
    if_neg (by simp [hstops]), if_pos hbudget]

theorem descend_visits (hstops : w.stopsAt s = false) (hbudget : progress.nodes.length < w.budget)
    {left right : Subtree Node} (hchildren : s.children w.numbering = some (left, right))
    (expected : Option Cv) :
    w.descend s expected progress = (w.visit s expected progress).bind fun visited =>
        (w.descend left (some visited.1.1) visited.2).bind fun progress =>
          w.descend right (some visited.1.2) progress := by
  rw [descend, if_neg (by simp [htruncated]), if_neg (by simp [hoverlaps]),
    if_neg (by simp [hstops]), if_neg (Nat.not_le.mpr hbudget)]
  congr 1
  funext visited
  split
  · rename_i hnone
    rw [hnone] at hchildren
    cases hchildren
  · rename_i hsome
    rw [hsome] at hchildren
    cases hchildren
    rfl

end

end

/-- What a descent that succeeds has done. -/
theorem descend_eq_ok {expected : Option Cv} {next : Progress Node σ}
    (h : w.descend s expected progress = .ok next) :
    next = progress ∨ next = w.report s expected progress ∨
      next = { progress with truncatedAt := some s.start } ∨
      w.stopsAt s = false ∧ ∃ pair visited left right between,
        w.visit s expected progress = .ok (pair, visited) ∧
        s.children w.numbering = some (left, right) ∧
        w.descend left (some pair.1) visited = .ok between ∧
        w.descend right (some pair.2) between = .ok next := by
  rw [descend] at h
  split at h
  · exact .inl (Except.ok.inj h).symm
  · split at h
    · exact .inl (Except.ok.inj h).symm
    · split at h
      · exact .inr (.inl (Except.ok.inj h).symm)
      · rename_i hstops
        split at h
        · exact .inr (.inr (.inl (Except.ok.inj h).symm))
        · refine .inr (.inr (.inr ⟨by simpa using hstops, ?_⟩))
          obtain ⟨⟨pair, visited⟩, hvisit, hrest⟩ := Support.bind_eq_ok h
          split at hrest
          · cases hrest
          · rename_i left right hchildren
            obtain ⟨between, hleft, hright⟩ := Support.bind_eq_ok hrest
            exact ⟨pair, visited, left, right, between, hvisit, hchildren, hleft, hright⟩

end Walk

end Synch.Proofs
