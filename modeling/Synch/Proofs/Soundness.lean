import Synch.Proofs.RoundTrip

/-!
# Soundness of received proofs

Whatever bytes a requester is sent, the nodes it saves and the subtrees it
records are those of every complete outboard of the object, unless the bytes
hold a collision with one of that outboard's pairs.
-/

namespace Synch.Proofs

open List

variable {Node : Type}

section Receiving

/-! ## What bytes can say -/

variable {bytes rest encoded : List UInt8} {pair : NodePair} {hash : TreeHash}
  {numbering : Numbering Node} {root : Hash} {size level : Nat} {served : ChunkRanges}
  {leaf : Nat → Cv} {outboard : Outboard Node}

theorem readPair_length (h : readPair bytes = some (pair, rest)) : rest.length < bytes.length := by
  unfold readPair at h
  split at h
  · rename_i hlong
    cases h
    have hpos : 0 < proofNodeLen := by decide
    rw [length_drop]
    omega
  · cases h

/-- The pairs a byte string splits into. -/
def pairsIn (bytes : List UInt8) : List NodePair :=
  match _h : readPair bytes with
  | none => []
  | some (pair, rest) => pair :: pairsIn rest
termination_by bytes.length
decreasing_by exact readPair_length ‹_›

theorem pairsIn_of_readPair (h : readPair bytes = some (pair, rest)) :
    pairsIn bytes = pair :: pairsIn rest := by
  rw [pairsIn]
  split
  · rename_i hnone
    rw [hnone] at h
    cases h
  · rename_i hsome
    rw [hsome] at h
    cases h
    rfl

theorem readPair_of_loadFromBytes {node : Node} (h : loadFromBytes node bytes = .ok (pair, rest)) :
    readPair bytes = some (pair, rest) := by
  unfold loadFromBytes at h
  split at h
  · rename_i hread
    cases h
    exact hread
  · cases h

/-- No pair of the list collides with a different pair of the outboard. -/
def CollisionFree (hash : TreeHash) (pairs : List NodePair) (outboard : Outboard Node) : Prop :=
  ∀ pair ∈ pairs, ∀ node stored, outboard node = some stored →
    (hash.join pair.1 pair.2 = hash.join stored.1 stored.2 → pair = stored) ∧
      (hash.joinRoot pair.1 pair.2 = hash.joinRoot stored.1 stored.2 → pair = stored)

inductive InTree (numbering : Numbering Node) (top : Subtree Node) :
    Subtree Node → Prop
  | top : InTree numbering top top
  | left {s left right : Subtree Node} (h : InTree numbering top s)
      (hchildren : s.children numbering = some (left, right)) : InTree numbering top left
  | right {s left right : Subtree Node} (h : InTree numbering top s)
      (hchildren : s.children numbering = some (left, right)) : InTree numbering top right

/-- The outboard holds the value of a subtree in the pair of its parent. -/
def HoldsValue
    (numbering : Numbering Node) (size : Nat) (outboard : Outboard Node)
    (s : Subtree Node) (cv : Cv) : Prop :=
  ∃ parent left right pair,
    InTree numbering (.rootOf numbering size) parent ∧
    parent.children numbering = some (left, right) ∧
    outboard parent.node = some pair ∧
    (s = left ∧ cv = pair.1 ∨ s = right ∧ cv = pair.2)

/-- A reported subtree is one of the tree, with the value the outboard holds. -/
def InOutboard
    (numbering : Numbering Node) (size : Nat) (outboard : Outboard Node)
    (reported : ProvenSubtree) : Prop :=
  ∃ s, HoldsValue numbering size outboard s reported.cv ∧
    reported.start = s.start ∧ reported.groups = s.groups

section Walk

variable {w : Walk Node (List UInt8)} {leaf : Nat → Cv} {outboard : Outboard Node}

/-- Nodes and subtrees of a walk agree with a complete outboard. -/
structure Agrees
    (w : Walk Node (List UInt8)) (outboard : Outboard Node)
    (progress : Progress Node (List UInt8)) : Prop where
  nodes : ∀ visited ∈ progress.nodes, outboard visited.1 = some visited.2
  proven : ∀ s ∈ progress.proven, InOutboard w.numbering w.size outboard s
  free : CollisionFree w.hash (pairsIn progress.loader) outboard

variable {s : Subtree Node} {expected : Option Cv} {progress : Progress Node (List UInt8)}

theorem Agrees.report (h : Agrees w outboard progress)
    (hheld : ∀ cv, expected = some cv → HoldsValue w.numbering w.size outboard s cv) :
    Agrees w outboard (w.report s expected progress) := by
  cases expected with
  | none => exact h
  | some cv =>
    refine { nodes := h.nodes, proven := ?_, free := h.free }
    intro t ht
    rcases mem_append.mp ht with hold | hnew
    · exact h.proven t hold
    · obtain rfl := mem_singleton.mp hnew
      exact ⟨s, hheld cv rfl, rfl, rfl⟩

theorem pair_eq_of_check (hverify : w.verify = true) {left right : Subtree Node} {pair : NodePair}
    (hexpects : w.Expects leaf s expected)
    (hchildren : s.children w.numbering = some (left, right))
    (hstored : outboard s.node = some (pairOf w.hash leaf left right))
    (hfree : CollisionFree w.hash [pair] outboard) (hcheck : w.check s expected pair = .ok ()) :
    pair = pairOf w.hash leaf left right := by
  obtain ⟨hjoin, hroot⟩ := hfree pair (by simp) s.node _ hstored
  unfold Walk.check at hcheck
  rw [if_pos hverify] at hcheck
  cases expected with
  | none =>
    dsimp only at hcheck
    split at hcheck
    · rename_i htop
      apply hroot
      rw [htop]
      exact (hexpects left right hchildren).symm
    · cases hcheck
  | some cv =>
    dsimp only at hcheck
    split at hcheck
    · rename_i hparent
      apply hjoin
      rw [hparent]
      have hvalue : cv = s.value w.hash.join leaf := hexpects
      rw [hvalue, (Subtree.splits_of_children hchildren).value_eq]
      rfl
    · cases hcheck

theorem visit_eq_ok {next : Progress Node (List UInt8)} {pair : NodePair}
    (h : w.visit s expected progress = .ok (pair, next)) :
    ∃ loader, w.load s.node progress.loader = .ok (pair, loader) ∧
      w.check s expected pair = .ok () ∧ next = progress.push loader s.node pair := by
  obtain ⟨⟨pair', loader⟩, hload, hrest⟩ := Support.bind_eq_ok h
  obtain ⟨done, hcheck, hdone⟩ := Support.bind_eq_ok hrest
  cases hdone
  exact ⟨loader, hload, hcheck, rfl⟩

/-- A verifying walk over received bytes stays in agreement. -/
theorem descend_agrees (hverify : w.verify = true) (hload : w.load = loadFromBytes)
    (hcomplete : CompleteBelow w.hash w.numbering leaf outboard s)
    (hinside : InTree w.numbering (.rootOf w.numbering w.size) s)
    (hexpects : w.Expects leaf s expected)
    (hheld : ∀ cv, expected = some cv → HoldsValue w.numbering w.size outboard s cv)
    {next : Progress Node (List UInt8)} (hagrees : Agrees w outboard progress)
    (h : w.descend s expected progress = .ok next) : Agrees w outboard next := by
  induction hcomplete generalizing expected progress next with
  | @group s hone =>
    rcases Walk.descend_eq_ok h with rfl | rfl | rfl | ⟨hstops, -⟩
    · exact hagrees
    · exact hagrees.report hheld
    · exact ⟨hagrees.nodes, hagrees.proven, hagrees.free⟩
    · simp [Walk.stopsAt, hone] at hstops
  | @node s left right hchildren hpair hleft hright ihLeft ihRight =>
    rcases Walk.descend_eq_ok h with rfl | rfl | rfl | ⟨-, hvisited⟩
    · exact hagrees
    · exact hagrees.report hheld
    · exact ⟨hagrees.nodes, hagrees.proven, hagrees.free⟩
    · obtain ⟨pair, visited, left', right', between, hvisit, hchildren', hdescendLeft,
        hdescendRight⟩ := hvisited
      rw [hchildren] at hchildren'
      cases hchildren'
      obtain ⟨loader, hloaded, hcheck, rfl⟩ := visit_eq_ok hvisit
      have hpairs : pairsIn progress.loader = pair :: pairsIn loader := by
        rw [hload] at hloaded
        exact pairsIn_of_readPair (readPair_of_loadFromBytes hloaded)
      have hfree := hagrees.free
      rw [hpairs] at hfree
      -- The check and collision-freeness leave only the tree's own pair.
      obtain rfl : pair = pairOf w.hash leaf left right :=
        pair_eq_of_check hverify hexpects hchildren hpair (fun p hp => hfree p (by simp_all)) hcheck
      have hpushed : Agrees w outboard (progress.push loader s.node
          (pairOf w.hash leaf left right)) := by
        refine
          { nodes := ?_
            proven := hagrees.proven
            free := fun p hp => hfree p (mem_cons_of_mem _ hp) }
        intro visited hmem
        rcases mem_append.mp hmem with hold | hnew
        · exact hagrees.nodes visited hold
        · obtain rfl := mem_singleton.mp hnew
          exact hpair
      have hbetween := ihLeft (hinside.left hchildren) (w.expects_value leaf left)
        (fun cv hcv => ⟨s, left, right, _, hinside, hchildren, hpair,
          .inl ⟨rfl, (Option.some.inj hcv).symm⟩⟩) hpushed hdescendLeft
      exact ihRight (hinside.right hchildren) (w.expects_value leaf right)
        (fun cv hcv => ⟨s, left, right, _, hinside, hchildren, hpair,
          .inr ⟨rfl, (Option.some.inj hcv).symm⟩⟩) hbetween hdescendRight

end Walk

theorem agrees_of_checkProof {proof : Progress Node (List UInt8)}
    (h : checkProof hash numbering root size served level encoded = .ok proof)
    (hcomplete : Complete hash numbering leaf outboard size root)
    (hfree : CollisionFree hash (pairsIn encoded) outboard) :
    Agrees (receivingWalk hash numbering root size served level) outboard proof := by
  have hstart : Agrees (receivingWalk hash numbering root size served level)
      outboard { loader := encoded } :=
    { nodes := by simp, proven := by simp, free := hfree }
  have hexpects : (receivingWalk hash numbering root size served level).Expects leaf
      (.rootOf numbering size) none := hcomplete.root_eq
  unfold checkProof at h
  split at h
  · cases h
  · obtain ⟨walked, hwalk, hrest⟩ := Support.bind_eq_ok h
    have hsame : walked = proof := by
      split at hrest
      · cases hrest
      · split at hrest
        · cases hrest
        · exact Except.ok.inj hrest
    subst hsame
    unfold Walk.walkProof at hwalk
    split at hwalk
    · exact descend_agrees rfl rfl hcomplete.below .top hexpects nofun hstart hwalk
    · cases hwalk
      exact hstart

/-! ## The receiver -/

/-- What proof rounds established about one object. -/
structure Proven where
  root : Hash
  size : Nat
  subtrees : List ProvenSubtree
deriving DecidableEq, Repr

def Proven.none (root : Hash) (size : Nat) : Proven :=
  ⟨root, size, []⟩

/-- Add a subtree unless one at its position is there. -/
def absorbSubtree (held : List ProvenSubtree) (s : ProvenSubtree) : List ProvenSubtree :=
  if held.any fun t => t.start == s.start && t.groups == s.groups then held
  else held ++ [s]

/-- Fold another round's subtrees over the same object into this one. -/
def Proven.absorb (proven other : Proven) : Except (ProofError Node) Proven :=
  if other.root ≠ proven.root ∨ other.size ≠ proven.size then
    .error (.otherObject other.root other.size proven.size)
  else
    .ok { proven with subtrees := other.subtrees.foldl absorbSubtree proven.subtrees }

/-- A requester's outboard and what it recorded as proven. -/
structure Receiver (Node : Type) where
  outboard : Outboard Node
  proven : Proven

/-- One answer to a proof request. -/
structure ProofRound where
  served : ChunkRanges
  level : Nat
  encoded : List UInt8

variable [DecidableEq Node]

/-- Verify one answer and record what it proves. -/
def Receiver.receive
    (hash : TreeHash) (numbering : Numbering Node) (r : Receiver Node)
    (round : ProofRound) : Receiver Node × Except (ProofError Node) Unit :=
  let verified := verifyProofIntoOutboard hash numbering r.outboard r.proven.root
    r.proven.size round.served round.level round.encoded
  match verified.2 with
  | .error reason => ({ r with outboard := verified.1 }, .error reason)
  | .ok (_, subtrees) =>
    match r.proven.absorb ⟨r.proven.root, r.proven.size, subtrees⟩ with
    | .error reason => ({ r with outboard := verified.1 }, .error reason)
    | .ok proven => (⟨verified.1, proven⟩, .ok ())

theorem verifyProofIntoOutboard_of_error {reason : ProofError Node}
    (h : (verifyProofIntoOutboard hash numbering outboard root size served level encoded).2 =
      .error reason) :
    (verifyProofIntoOutboard hash numbering outboard root size served level
      encoded).1 = outboard := by
  cases hcheck : checkProof hash numbering root size served level encoded with
  | error other => rw [verifyProofIntoOutboard, hcheck]
  | ok proof =>
    rw [verifyProofIntoOutboard_of_ok hcheck] at h
    cases h

theorem checkProof_of_verify_ok {received : Outboard Node} {wrote : Bool}
    {proven : List ProvenSubtree}
    (h : verifyProofIntoOutboard hash numbering outboard root size served level encoded =
      (received, .ok (wrote, proven))) :
    ∃ proof, checkProof hash numbering root size served level encoded = .ok proof ∧
      received = outboard.saveAll proof.nodes ∧ proven = proof.proven := by
  cases hcheck : checkProof hash numbering root size served level encoded with
  | error reason =>
    rw [verifyProofIntoOutboard, hcheck] at h
    cases h
  | ok proof =>
    rw [verifyProofIntoOutboard_of_ok hcheck] at h
    cases h
    exact ⟨proof, rfl, rfl, rfl⟩

/-- Accepted bytes only write pairs and report values of the object's tree, and
rejected bytes record nothing. -/
theorem received_proof_sound
    (hash : TreeHash) (numbering : Numbering Node) (r : Receiver Node)
    (round : ProofRound) :
    (∀ received wrote proven,
      verifyProofIntoOutboard hash numbering r.outboard r.proven.root r.proven.size
        round.served round.level round.encoded = (received, .ok (wrote, proven)) →
      ∀ leaf outboard,
        Complete hash numbering leaf outboard r.proven.size r.proven.root →
        CollisionFree hash (pairsIn round.encoded) outboard →
        (∃ nodes, received = r.outboard.saveAll nodes ∧
          ∀ visited ∈ nodes, outboard visited.1 = some visited.2) ∧
        ∀ s ∈ proven, InOutboard numbering r.proven.size outboard s) ∧
    ∀ received reason,
      verifyProofIntoOutboard hash numbering r.outboard r.proven.root r.proven.size
        round.served round.level round.encoded = (received, .error reason) →
      received = r.outboard ∧ r.receive hash numbering round = (r, .error reason) := by
  constructor
  · intro received wrote proven hverified leaf outboard hcomplete hfree
    obtain ⟨proof, hcheck, rfl, rfl⟩ := checkProof_of_verify_ok hverified
    have hagrees := agrees_of_checkProof hcheck hcomplete hfree
    exact ⟨⟨proof.nodes, rfl, hagrees.nodes⟩, hagrees.proven⟩
  · intro received reason hverified
    have hsame : received = r.outboard := by
      have hfirst := verifyProofIntoOutboard_of_error (congrArg Prod.snd hverified)
      rw [hverified] at hfirst
      exact hfirst
    refine ⟨hsame, ?_⟩
    rw [Receiver.receive, hverified]
    rw [hsame]

/-! ## Rounds of a proof exchange -/

/-- What a receiver holds agrees with a complete outboard of its object. -/
structure Receiver.Sound
    (numbering : Numbering Node) (outboard : Outboard Node) (r : Receiver Node) :
    Prop where
  stored : ∀ node pair, r.outboard node = some pair → outboard node = some pair
  proven : ∀ s ∈ r.proven.subtrees, InOutboard numbering r.proven.size outboard s

theorem mem_of_mem_foldl_absorb {new held : List ProvenSubtree} {s : ProvenSubtree}
    (h : s ∈ new.foldl absorbSubtree held) : s ∈ held ∨ s ∈ new := by
  induction new generalizing held with
  | nil => exact .inl h
  | cons head new ih =>
    rcases ih h with hheld | hnew
    · unfold absorbSubtree at hheld
      split at hheld
      · exact .inl hheld
      · rcases mem_append.mp hheld with hold | hhead
        · exact .inl hold
        · exact .inr (by simp [mem_singleton.mp hhead])
    · exact .inr (mem_cons_of_mem _ hnew)

theorem Receiver.receive_cases (hash : TreeHash) (numbering : Numbering Node) (r : Receiver Node)
    (round : ProofRound) :
    (r.receive hash numbering round).1 = r ∨
      ∃ proof, checkProof hash numbering r.proven.root r.proven.size round.served
          round.level round.encoded = .ok proof ∧
        (r.receive hash numbering round).1 =
          ⟨r.outboard.saveAll proof.nodes, { r.proven with
            subtrees := proof.proven.foldl absorbSubtree r.proven.subtrees }⟩ := by
  cases hcheck : checkProof hash numbering r.proven.root r.proven.size round.served
      round.level round.encoded with
  | error reason =>
    refine .inl ?_
    simp only [receive, verifyProofIntoOutboard, hcheck]
  | ok proof =>
    refine .inr ⟨proof, rfl, ?_⟩
    simp [receive, verifyProofIntoOutboard_of_ok hcheck, Proven.absorb]

theorem Receiver.Sound.receive {r : Receiver Node}
    (hcomplete : Complete hash numbering leaf outboard r.proven.size r.proven.root)
    (h : r.Sound numbering outboard) {round : ProofRound}
    (hfree : CollisionFree hash (pairsIn round.encoded) outboard) :
    (r.receive hash numbering round).1.Sound numbering outboard := by
  rcases r.receive_cases hash numbering round with hsame | ⟨proof, hcheck, hnext⟩
  · rw [hsame]
    exact h
  · have hagrees := agrees_of_checkProof hcheck hcomplete hfree
    rw [hnext]
    refine { stored := ?_, proven := ?_ }
    · intro node pair hstored
      change r.outboard.saveAll proof.nodes node = some pair at hstored
      rw [saveAll_apply r.outboard outboard hagrees.nodes] at hstored
      split at hstored
      · exact hstored
      · exact h.stored node pair hstored
    · intro s hs
      rcases mem_of_mem_foldl_absorb hs with hold | hnew
      · exact h.proven s hold
      · exact hagrees.proven s hnew

theorem Receiver.receive_object (hash : TreeHash) (numbering : Numbering Node) (r : Receiver Node)
    (round : ProofRound) :
    (r.receive hash numbering round).1.proven.root = r.proven.root ∧
      (r.receive hash numbering round).1.proven.size = r.proven.size := by
  rcases r.receive_cases hash numbering round with hsame | ⟨proof, -, hnext⟩
  · rw [hsame]
    exact ⟨rfl, rfl⟩
  · rw [hnext]
    exact ⟨rfl, rfl⟩

/-- However many answers of however many peers a receiver takes, it only holds
what the object's own tree holds. -/
theorem Receiver.Sound.receive_all {rounds : List ProofRound}
    (hfree : ∀ round ∈ rounds, CollisionFree hash (pairsIn round.encoded) outboard)
    {r : Receiver Node}
    (hcomplete : Complete hash numbering leaf outboard r.proven.size r.proven.root)
    (h : r.Sound numbering outboard) :
    (rounds.foldl (fun r round => (r.receive hash numbering round).1) r).Sound
      numbering outboard := by
  induction rounds generalizing r with
  | nil => exact h
  | cons round rounds ih =>
    obtain ⟨hroot, hsize⟩ := r.receive_object hash numbering round
    apply ih
    · intro other hother
      exact hfree other (mem_cons_of_mem _ hother)
    · rw [hroot, hsize]
      exact hcomplete
    · exact h.receive hcomplete (hfree round mem_cons_self)

end Receiving

/-! ## Receiving a proof of the zero blob -/

namespace ZeroBlob

def pairs : List NodePair :=
  [(firstCv, groupCv 2), (groupCv 0, groupCv 1)]

def receiver : Receiver Nat :=
  ⟨fun _ => none, .none root 40000⟩

/-- The whole proof. -/
def round : ProofRound :=
  ⟨request, 0, pairs.flatMap pairBytes⟩

/-- The proof without its last node. -/
def cutRound : ProofRound :=
  ⟨request, 0, (pairs.take 1).flatMap pairBytes⟩

theorem collisionFree : CollisionFree hash (pairsIn round.encoded) outboard := by
  have hpairs : pairsIn round.encoded = pairs := by decide +kernel
  rw [hpairs]
  intro pair hpair node stored hstored
  have hmem : stored ∈ pairs := by
    unfold outboard at hstored
    split at hstored
    · cases hstored
      exact mem_cons_of_mem _ mem_cons_self
    · cases hstored
      exact mem_cons_self
    · cases hstored
  have hall : ∀ p ∈ pairs, ∀ q ∈ pairs,
      (hash.join p.1 p.2 = hash.join q.1 q.2 → p = q) ∧
        (hash.joinRoot p.1 p.2 = hash.joinRoot q.1 q.2 → p = q) := by
    decide +kernel
  exact hall pair hpair stored hmem

theorem verify_isOk :
    (verifyProofIntoOutboard hash numbering (fun _ => none) root 40000 request 0
      round.encoded).2.isOk = true := by
  decide +kernel

theorem verify_cut_isOk :
    (verifyProofIntoOutboard hash numbering (fun _ => none) root 40000 request 0
      cutRound.encoded).2.isOk = false := by
  decide +kernel

end ZeroBlob

/-- The whole proof is accepted and agrees with the blob's outboard; without its
last node it is rejected and changes nothing. -/
theorem received_proof_sound_zeroBlob :
    (∃ received wrote proven,
      verifyProofIntoOutboard ZeroBlob.hash ZeroBlob.numbering (fun _ => none)
        ZeroBlob.root 40000 ZeroBlob.request 0 ZeroBlob.round.encoded =
          (received, .ok (wrote, proven)) ∧
      (∃ nodes, received = Outboard.saveAll (fun _ => none) nodes ∧
        ∀ visited ∈ nodes, ZeroBlob.outboard visited.1 = some visited.2) ∧
      ∀ s ∈ proven, InOutboard ZeroBlob.numbering 40000 ZeroBlob.outboard s) ∧
    ∃ reason, ZeroBlob.receiver.receive ZeroBlob.hash ZeroBlob.numbering
      ZeroBlob.cutRound = (ZeroBlob.receiver, .error reason) := by
  constructor
  · cases hverified : verifyProofIntoOutboard ZeroBlob.hash ZeroBlob.numbering
        (fun _ => none) ZeroBlob.root 40000 ZeroBlob.request 0
        ZeroBlob.round.encoded with
    | mk received answer =>
      cases answer with
      | error reason =>
        have hok := ZeroBlob.verify_isOk
        rw [hverified] at hok
        cases hok
      | ok established =>
        have hsound := (received_proof_sound ZeroBlob.hash ZeroBlob.numbering
          ZeroBlob.receiver ZeroBlob.round).1 received established.1 established.2
          hverified ZeroBlob.groupCv ZeroBlob.outboard ZeroBlob.complete
          ZeroBlob.collisionFree
        exact ⟨received, established.1, established.2, rfl, hsound⟩
  · cases hverified : verifyProofIntoOutboard ZeroBlob.hash ZeroBlob.numbering
        (fun _ => none) ZeroBlob.root 40000 ZeroBlob.request 0
        ZeroBlob.cutRound.encoded with
    | mk received answer =>
      cases answer with
      | ok established =>
        have hok := ZeroBlob.verify_cut_isOk
        rw [hverified] at hok
        cases hok
      | error reason =>
        have hsound := (received_proof_sound ZeroBlob.hash ZeroBlob.numbering
          ZeroBlob.receiver ZeroBlob.cutRound).2 received reason hverified
        exact ⟨reason, hsound.2⟩

/-- The whole proof, received of two peers. -/
theorem zeroBlob_received_twice :
    ([ZeroBlob.round, ZeroBlob.round].foldl
      (fun r round => (r.receive ZeroBlob.hash ZeroBlob.numbering round).1)
      ZeroBlob.receiver).Sound ZeroBlob.numbering ZeroBlob.outboard :=
  Receiver.Sound.receive_all (by simp [ZeroBlob.collisionFree]) ZeroBlob.complete ⟨nofun, nofun⟩

end Synch.Proofs
