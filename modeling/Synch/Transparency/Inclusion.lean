import Synch.Hash
import Synch.Support.AuditPath
import Synch.Support.Fallible

/-!
# Inclusion in the transparency log

A record carries the audit path of its entry, and the client climbs it from the
leaf hash to the root of the signed checkpoint.  SHA-256 is a parameter.
-/

namespace Synch.Transparency

open Synch.Support

/-- Why a zone-key transparency record was refused. -/
inductive ProofError where
  | malformed (why : String)
  | attribution (why : String)
  | binding (why : String)
  | inclusion (why : String)
  | checkpoint (why : String)
  | unknownLog (why : String)
  | chain (why : String)
deriving DecidableEq, Repr

section Walk

variable (sha256 : List UInt8 → Hash)

def nodeHash (left right : Hash) : Hash :=
  sha256 (0x01 :: (left.bytes ++ right.bytes))

/-- A leaf hash over already-serialized entry bytes. -/
def leafHash (entry : List UInt8) : Hash :=
  sha256 (0x00 :: entry)

/-- How far a walk has come: the number of its node in the row it has reached,
the number of the last node of that row, and the hash so far. -/
structure Climb where
  node : Nat
  last : Nat
  hash : Hash
deriving DecidableEq, Repr

/-- Pass the rows in which the node is the last one and has no sibling. -/
def skipLevels (node last : Nat) : Nat × Nat :=
  if node ≠ 0 ∧ node % 2 = 0 then skipLevels (node / 2) (last / 2) else (node, last)
termination_by node
decreasing_by omega

variable (climb : Climb)

/-- One hop of an audit path. -/
def Climb.step (sibling : Hash) : Except ProofError Climb :=
  if climb.last = 0 then
    .error (.inclusion "the audit path is longer than the tree is deep")
  else if climb.node % 2 = 1 ∨ climb.node = climb.last then
    let (node, last) := skipLevels climb.node climb.last
    .ok
      { node := node / 2
        last := last / 2
        hash := nodeHash sha256 sibling climb.hash }
  else
    .ok
      { node := climb.node / 2
        last := climb.last / 2
        hash := nodeHash sha256 climb.hash sibling }

/-- Walk an audit path from a leaf to a root. -/
def verifyInclusion
    (index treeSize : Nat) (leaf : Hash) (path : List Hash) (root : Hash) :
    Except ProofError Unit := do
  refuseIf (index ≥ treeSize) (.inclusion s!"entry {index} is outside a tree of {treeSize}")
  let climb ← path.foldlM (Climb.step sha256) ⟨index, treeSize - 1, leaf⟩
  refuseIf (climb.last ≠ 0) (.inclusion "the audit path is shorter than the tree is deep")
  refuseIf (climb.hash ≠ root) (.inclusion "the audit path does not reach the checkpoint's root")

/-! ## The tree and the paths the walk is held to -/

variable (entries : List (List UInt8))

/-- The leaf hash of the entry at a position. -/
def leafAt (i : Nat) : Hash :=
  leafHash sha256 (entries.getD i [])

def merkleTreeHash : Hash :=
  treeValue (nodeHash sha256) (leafAt sha256 entries) 0 entries.length

def inclusionPath (index : Nat) : List Hash :=
  auditPath (nodeHash sha256) (leafAt sha256 entries) 0 entries.length index

def treePairs : List (Hash × Hash) :=
  joins (nodeHash sha256) (leafAt sha256 entries) 0 entries.length

/-! ## One hop -/

/-- Whether the sibling of the walk's node is on its left. -/
def Climb.OnRight : Prop :=
  climb.node % 2 = 1 ∨ climb.node = climb.last

instance (climb : Climb) : Decidable climb.OnRight :=
  inferInstanceAs (Decidable (_ ∨ _))

def Climb.pair (sibling : Hash) : Hash × Hash :=
  if climb.OnRight then (sibling, climb.hash) else (climb.hash, sibling)

/-- Where a hop leads. -/
def Climb.next (sibling : Hash) : Climb :=
  let row := if climb.OnRight then skipLevels climb.node climb.last
    else (climb.node, climb.last)
  { node := row.1 / 2
    last := row.2 / 2
    hash := nodeHash sha256 (climb.pair sibling).1 (climb.pair sibling).2 }

theorem Climb.step_eq (climb : Climb) (sibling : Hash) :
    climb.step sha256 sibling =
      if climb.last = 0 then
        .error (.inclusion "the audit path is longer than the tree is deep")
      else .ok (climb.next sha256 sibling) := by
  unfold Climb.step Climb.next Climb.pair
  by_cases hright : climb.node % 2 = 1 ∨ climb.node = climb.last
  · have honright : climb.OnRight := hright
    simp only [hright, honright, if_true]
  · have honright : ¬climb.OnRight := hright
    simp only [hright, honright, if_false]

def walkPairs : Climb → List Hash → List (Hash × Hash)
  | _, [] => []
  | climb, sibling :: path =>
    climb.pair sibling :: walkPairs (climb.next sha256 sibling) path

/-- The walk of a path ends at the top of the tree with the root's hash. -/
def Reaches (path : List Hash) (root : Hash) : Prop :=
  ∃ top, path.foldlM (Climb.step sha256) climb = .ok top ∧ top.last = 0 ∧ top.hash = root

variable {sha256}

variable {climb : Climb} {root : Hash} {path : List Hash} {node last m n : Nat}
  {leaf : Nat → Hash}

@[simp] theorem reaches_nil :
    Reaches sha256 climb [] root ↔ climb.last = 0 ∧ climb.hash = root := by
  constructor
  · rintro ⟨top, htop, hend⟩
    cases htop
    exact hend
  · intro hend
    exact ⟨climb, rfl, hend⟩

@[simp] theorem reaches_cons {sibling : Hash} :
    Reaches sha256 climb (sibling :: path) root ↔
      climb.last ≠ 0 ∧ Reaches sha256 (climb.next sha256 sibling) path root := by
  unfold Reaches
  rw [List.foldlM_cons, Climb.step_eq]
  split
  · rename_i hlast
    constructor
    · rintro ⟨top, htop, -⟩
      cases htop
    · intro h
      exact absurd hlast h.1
  · rename_i hlast
    exact ⟨fun h => ⟨hlast, h⟩, fun h => h.2⟩

theorem verifyInclusion_eq_ok_iff {index treeSize : Nat} {leaf : Hash} :
    verifyInclusion sha256 index treeSize leaf path root = .ok () ↔
      index < treeSize ∧ Reaches sha256 ⟨index, treeSize - 1, leaf⟩ path root := by
  unfold verifyInclusion Reaches
  simp only [bind_eq_ok_iff, refuseIf_eq_ok_iff, exists_const, ge_iff_le, Nat.not_le,
    ne_eq, not_not]

/-! ## Passing a row without a sibling -/

/-- The walk one row up, where its node is the last and has no sibling. -/
def Climb.carried : Climb :=
  { climb with node := climb.node / 2, last := climb.last / 2 }

/-- The walk's node is the last of its row and has no sibling there. -/
structure Climb.Alone (climb : Climb) : Prop where
  isLast : climb.node = climb.last
  even : climb.node % 2 = 0
  below : climb.last ≠ 0

theorem Climb.Alone.pair_carried (h : climb.Alone) (sibling : Hash) :
    climb.carried.pair sibling = climb.pair sibling := by
  have hright : climb.OnRight := .inr h.isLast
  have hcarried : climb.carried.OnRight := .inr (by simp [Climb.carried, h.isLast])
  rw [Climb.pair, if_pos hcarried, Climb.pair, if_pos hright]
  rfl

/-- The walk hashes first and passes the row afterwards. -/
theorem Climb.Alone.next_carried (h : climb.Alone) (sibling : Hash) :
    climb.carried.next sha256 sibling = climb.next sha256 sibling := by
  have hright : climb.OnRight := .inr h.isLast
  have hcarried : climb.carried.OnRight := .inr (by simp [Climb.carried, h.isLast])
  have hskip : skipLevels climb.carried.node climb.carried.last =
      skipLevels climb.node climb.last := by
    rw [skipLevels.eq_def climb.node, if_pos ⟨h.isLast ▸ h.below, h.even⟩]
    rfl
  simp only [Climb.next, if_pos hright, if_pos hcarried, hskip, h.pair_carried]

theorem Climb.Alone.reaches_carried (h : climb.Alone) :
    Reaches sha256 climb.carried path root ↔ Reaches sha256 climb path root := by
  have hbelow := h.below
  have habove : climb.carried.last ≠ 0 := by
    have heven := h.even
    rw [h.isLast] at heven
    change climb.last / 2 ≠ 0
    omega
  cases path with
  | nil => simp [habove, hbelow]
  | cons sibling path => simp [habove, hbelow, h.next_carried]

theorem Climb.Alone.walkPairs_carried (h : climb.Alone) (path : List Hash) :
    walkPairs sha256 climb.carried path = walkPairs sha256 climb path := by
  cases path with
  | nil => rfl
  | cons sibling path => rw [walkPairs, walkPairs, h.pair_carried, h.next_carried]

/-! ## Hops with a sibling -/

theorem pair_of_odd (hodd : node % 2 = 1) (last : Nat) (hash sibling : Hash) :
    Climb.pair ⟨node, last, hash⟩ sibling = (sibling, hash) :=
  if_pos (.inl hodd)

theorem next_of_odd (hodd : node % 2 = 1) (last : Nat) (hash sibling : Hash) :
    Climb.next sha256 ⟨node, last, hash⟩ sibling =
      ⟨node / 2, last / 2, nodeHash sha256 sibling hash⟩ := by
  have hright : Climb.OnRight ⟨node, last, hash⟩ := .inl hodd
  have hskip : skipLevels node last = (node, last) := by
    rw [skipLevels, if_neg (by omega)]
  simp only [Climb.next, Climb.pair, if_pos hright, hskip]

theorem not_onRight (heven : node % 2 = 0) (hlt : node < last) (hash : Hash) :
    ¬Climb.OnRight ⟨node, last, hash⟩ := by
  rintro (hodd | hlast)
  · exact absurd hodd (by simp [heven])
  · exact absurd hlast hlt.ne

theorem pair_of_even (heven : node % 2 = 0) (hlt : node < last) (hash sibling : Hash) :
    Climb.pair ⟨node, last, hash⟩ sibling = (hash, sibling) :=
  if_neg (not_onRight heven hlt hash)

theorem next_of_even (heven : node % 2 = 0) (hlt : node < last) (hash sibling : Hash) :
    Climb.next sha256 ⟨node, last, hash⟩ sibling =
      ⟨node / 2, last / 2, nodeHash sha256 hash sibling⟩ := by
  simp only [Climb.next, Climb.pair, if_neg (not_onRight heven hlt hash)]

theorem pairUp_of_alone (heven : m % 2 = 0) (hlast : m + 1 = n) :
    pairUp (nodeHash sha256) leaf n (m / 2) = leaf m := by
  have hm : 2 * (m / 2) = m := by omega
  rw [pairUp, hm, if_neg (by omega)]

theorem pairUp_of_odd (hm : m < n) (hodd : m % 2 = 1) :
    pairUp (nodeHash sha256) leaf n (m / 2) = nodeHash sha256 (leaf (sibling m)) (leaf m) := by
  have hleft : 2 * (m / 2) = sibling m := by
    rw [sibling, if_neg (by omega)]
    omega
  have hright : sibling m + 1 = m := by
    rw [sibling, if_neg (by omega)]
    omega
  rw [pairUp, hleft, hright, if_pos hm]

theorem pairUp_of_even (hm : m + 1 < n) (heven : m % 2 = 0) :
    pairUp (nodeHash sha256) leaf n (m / 2) = nodeHash sha256 (leaf m) (leaf (sibling m)) := by
  have hleft : 2 * (m / 2) = m := by omega
  rw [pairUp, hleft, if_pos hm, sibling, if_pos heven]

/-- The audit path of a leaf leads from it to the root of the tree. -/
theorem reaches_auditPath (hm : m < n) (leaf : Nat → Hash) :
    Reaches sha256 ⟨m, n - 1, leaf m⟩
      (auditPath (nodeHash sha256) leaf 0 n m) (treeValue (nodeHash sha256) leaf 0 n) := by
  induction n using Nat.strong_induction_on generalizing m leaf with
  | _ n ih =>
    by_cases hone : n = 1
    · subst hone
      obtain rfl : m = 0 := by omega
      simp [auditPath, auditPathUpTo, treeValue_one]
    -- one row up there are fewer leaves
    have habove := @ih ((n + 1) / 2) (by omega) (m / 2) (by omega) (pairUp (nodeHash sha256) leaf n)
    have hrow : (n + 1) / 2 - 1 = (n - 1) / 2 := by omega
    rw [hrow] at habove
    rw [auditPath_pairUp hm, treeValue_pairUp (by omega)]
    by_cases hodd : m % 2 = 1
    · rw [if_neg (by omega), List.singleton_append, reaches_cons, next_of_odd hodd]
      rw [pairUp_of_odd hm hodd] at habove
      exact ⟨by simp only; omega, habove⟩
    have heven : m % 2 = 0 := by omega
    by_cases hlast : m + 1 = n
    · have halone : Climb.Alone ⟨m, n - 1, leaf m⟩ :=
        ⟨by simp only; omega, heven, by simp only; omega⟩
      rw [if_pos ⟨heven, hlast⟩, List.nil_append, ← halone.reaches_carried]
      rw [pairUp_of_alone heven hlast] at habove
      exact habove
    · rw [if_neg (by omega), List.singleton_append, reaches_cons, next_of_even heven (by omega)]
      rw [pairUp_of_even (by omega) heven] at habove
      exact ⟨by simp only; omega, habove⟩

variable (sha256) in
/-- No pair of the first list shares its hash with another pair of the second. -/
def CollisionFree (walked tree : List (Hash × Hash)) : Prop :=
  ∀ p ∈ walked, ∀ q ∈ tree, nodeHash sha256 p.1 p.2 = nodeHash sha256 q.1 q.2 → p = q

instance (walked tree : List (Hash × Hash)) : Decidable (CollisionFree sha256 walked tree) :=
  inferInstanceAs (Decidable (∀ p ∈ walked, ∀ q ∈ tree, _ → p = q))

theorem CollisionFree.mono {walked walked' tree tree' : List (Hash × Hash)}
    (h : CollisionFree sha256 walked tree) (hwalked : walked' ⊆ walked) (htree : tree' ⊆ tree) :
    CollisionFree sha256 walked' tree' :=
  fun p hp q hq => h p (hwalked hp) q (htree hq)

/-- A walk that reaches the root of a tree started at the tree's own leaf. -/
theorem eq_of_reaches (hm : m < n) {hash : Hash}
    (hfree : CollisionFree sha256 (walkPairs sha256 ⟨m, n - 1, hash⟩ path)
      (joins (nodeHash sha256) leaf 0 n))
    (h : Reaches sha256 ⟨m, n - 1, hash⟩ path (treeValue (nodeHash sha256) leaf 0 n)) :
    hash = leaf m := by
  induction n using Nat.strong_induction_on generalizing m leaf hash path with
  | _ n ih =>
    by_cases hone : n = 1
    · subst hone
      obtain rfl : m = 0 := by omega
      rw [treeValue_one] at h
      cases path with
      | nil => exact (reaches_nil.mp h).2
      | cons sibling path => exact absurd rfl (reaches_cons.mp h).1
    have hrow : (n + 1) / 2 - 1 = (n - 1) / 2 := by omega
    have hjoins : joins (nodeHash sha256) (pairUp (nodeHash sha256) leaf n) 0 ((n + 1) / 2) ⊆
        joins (nodeHash sha256) leaf 0 n :=
      fun _ hpair => mem_joins_of_above (by omega) hpair
    rw [treeValue_pairUp (by omega)] at h
    -- what the row above the leaves starts from is the pair over leaf `m`
    have habove : ∀ hash path,
        CollisionFree sha256 (walkPairs sha256 ⟨m / 2, (n - 1) / 2, hash⟩ path)
          (joins (nodeHash sha256) leaf 0 n) →
        Reaches sha256 ⟨m / 2, (n - 1) / 2, hash⟩ path
          (treeValue (nodeHash sha256) (pairUp (nodeHash sha256) leaf n) 0 ((n + 1) / 2)) →
        hash = pairUp (nodeHash sha256) leaf n (m / 2) := by
      intro hash path hfree h
      have hstep := @ih ((n + 1) / 2) (by omega) path (m / 2)
        (pairUp (nodeHash sha256) leaf n) (by omega) hash
      rw [hrow] at hstep
      exact hstep (hfree.mono (List.Subset.refl _) hjoins) h
    by_cases halone : m % 2 = 0 ∧ m + 1 = n
    · obtain ⟨heven, hlast⟩ := halone
      have hcarried : Climb.Alone ⟨m, n - 1, hash⟩ :=
        ⟨by simp only; omega, heven, by simp only; omega⟩
      rw [← hcarried.walkPairs_carried] at hfree
      rw [← hcarried.reaches_carried] at h
      exact (habove hash path hfree h).trans (pairUp_of_alone heven hlast)
    obtain _ | ⟨other, path⟩ := path
    · exact absurd (reaches_nil.mp h).1 (by simp only; omega)
    have hbelow : (leaf (2 * (m / 2)), leaf (2 * (m / 2) + 1)) ∈
        joins (nodeHash sha256) leaf 0 n := mem_joins_of_pair (by omega)
    rw [walkPairs] at hfree
    rw [reaches_cons] at h
    have htail := hfree.mono (List.subset_cons_self _ _) (List.Subset.refl _)
    have hhead := hfree _ List.mem_cons_self _ hbelow
    by_cases heven : m % 2 = 0
    · have hlt : m < n - 1 := by omega
      have hleft : 2 * (m / 2) = m := by omega
      rw [next_of_even heven hlt] at h htail
      have hvalue := habove _ _ htail h.2
      rw [pairUp, if_pos (by omega)] at hvalue
      rw [pair_of_even heven hlt, hleft] at hhead
      rw [hleft] at hvalue
      exact congrArg Prod.fst (hhead hvalue)
    · have hodd : m % 2 = 1 := by omega
      have hright : 2 * (m / 2) + 1 = m := by omega
      rw [next_of_odd hodd] at h htail
      have hvalue := habove _ _ htail h.2
      rw [pairUp, if_pos (by omega), hright] at hvalue
      rw [pair_of_odd hodd, hright] at hhead
      exact congrArg Prod.snd (hhead hvalue)

/-- The walk accepts the audit path of every entry, and nothing but an entry's own
leaf hash at its position, whatever path it is shown. -/
theorem inclusion_exact
    (sha256 : List UInt8 → Hash) (entries : List (List UInt8)) (index : Nat) :
    (∀ hindex : index < entries.length,
      verifyInclusion sha256 index entries.length (leafHash sha256 entries[index])
        (inclusionPath sha256 entries index) (merkleTreeHash sha256 entries) = .ok ()) ∧
    ∀ leaf path,
      CollisionFree sha256 (walkPairs sha256 ⟨index, entries.length - 1, leaf⟩ path)
        (treePairs sha256 entries) →
      verifyInclusion sha256 index entries.length leaf path
        (merkleTreeHash sha256 entries) = .ok () →
      ∃ hindex : index < entries.length, leaf = leafHash sha256 entries[index] := by
  have hleafAt : ∀ hindex : index < entries.length,
      leafAt sha256 entries index = leafHash sha256 entries[index] := by
    intro hindex
    simp [leafAt, hindex]
  constructor
  · intro hindex
    have hreaches : Reaches sha256 ⟨index, entries.length - 1, leafAt sha256 entries index⟩
        (inclusionPath sha256 entries index) (merkleTreeHash sha256 entries) :=
      reaches_auditPath hindex (leafAt sha256 entries)
    rw [hleafAt hindex] at hreaches
    exact verifyInclusion_eq_ok_iff.mpr ⟨hindex, hreaches⟩
  · intro leaf path hfree h
    obtain ⟨hindex, hreaches⟩ := verifyInclusion_eq_ok_iff.mp h
    exact ⟨hindex, (eq_of_reaches hindex hfree hreaches).trans (hleafAt hindex)⟩

end Walk

/-! ## A log of three entries -/

/-- The entries `a`, `b` and `c`. -/
def abcEntries : List (List UInt8) :=
  [[0x61], [0x62], [0x63]]

def abcLeaf (i : Fin 3) : Hash :=
  match i with
  | 0 => .ofNat 0x022a6979e6dab7aa5ae4c3e5e45f7e977112a7e63593820dbec1ec738a24f93c
  | 1 => .ofNat 0x57eb35615d47f34ec714cacdf5fd74608a5e8e102724e80b24b287c0c27b6a31
  | 2 => .ofNat 0x597fcb31282d34654c200d3418fca5705c648ebf326ec73d8ddef11841f876d8

def abHash : Hash :=
  .ofNat 0xb137985ff484fb600db93107c77b0365c80d78f5b429ded0fd97361d077999eb

def abcHash : Hash :=
  .ofNat 0x36642e73c2540ab121e3a6bf9545b0a24982cd830eb13d3cd19de3ce6c021ec1

/-- SHA-256 on what the tree over the entries hashes. -/
def abcSha256 (bytes : List UInt8) : Hash :=
  if bytes = [0x00, 0x61] then abcLeaf 0
  else if bytes = [0x00, 0x62] then abcLeaf 1
  else if bytes = [0x00, 0x63] then abcLeaf 2
  else if bytes = 0x01 :: ((abcLeaf 0).bytes ++ (abcLeaf 1).bytes) then abHash
  else if bytes = 0x01 :: (abHash.bytes ++ (abcLeaf 2).bytes) then abcHash
  else .ofNat 0

theorem inclusion_exact_abc :
    verifyInclusion abcSha256 2 3 (leafHash abcSha256 [0x63]) [abHash] abcHash = .ok () ∧
      ∃ hindex : 2 < abcEntries.length,
        leafHash abcSha256 [0x63] = leafHash abcSha256 abcEntries[2] := by
  have hroot : merkleTreeHash abcSha256 abcEntries = abcHash := by decide +kernel
  have hpath : inclusionPath abcSha256 abcEntries 2 = [abHash] := by decide +kernel
  obtain ⟨haccepts, hsound⟩ := inclusion_exact abcSha256 abcEntries 2
  have hok := haccepts (by decide)
  rw [hroot, hpath] at hok
  rw [hroot] at hsound
  exact ⟨hok, hsound (leafHash abcSha256 [0x63]) [abHash] (by decide +kernel) hok⟩

end Synch.Transparency
