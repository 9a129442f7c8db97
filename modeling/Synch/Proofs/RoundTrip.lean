import Synch.Proofs.Outboard

/-!
# Serving and receiving a proof

`encodeCompleteProof` serializes the nodes of a walk over a complete outboard,
and `verifyProofIntoOutboard` replays the walk over received bytes and saves the
nodes it checked.  What the provider serves, the requester accepts.
-/

namespace Synch.Proofs

open List

variable {Node : Type}

/-! ## The two sides -/

def loadFromOutboard (outboard : Outboard Node) (node : Node) (loader : Unit) :
    Except (ProofError Node) (NodePair × Unit) :=
  match outboard node with
  | some pair => .ok (pair, loader)
  | none => .error (.noOutboardEntry node)

/-- The walk of a provider over a complete outboard. -/
def servingWalk
    (hash : TreeHash) (numbering : Numbering Node) (root : Hash) (size : Nat)
    (wanted : ChunkRanges) (level budget : Nat) (outboard : Outboard Node) :
    Walk Node Unit :=
  { hash := hash, numbering := numbering, root := root, size := size
    ranges := wanted, level := level, budget := budget, verify := false
    load := loadFromOutboard outboard }

def encodeCompleteProof
    (hash : TreeHash) (numbering : Numbering Node) (root : Hash) (size : Nat)
    (requested : ChunkRanges) (level budget : Nat) (outboard : Outboard Node) :
    Except (ProofError Node) (List UInt8 × ChunkRanges) :=
  let groups := groupCount size
  let wanted := requested.intersect (.single 0 groups)
  if wanted.isEmpty || decide (groups ≤ 1) then
    .ok ([], wanted)
  else
    ((servingWalk hash numbering root size wanted level budget outboard).walkProof
      ()).bind fun proof =>
        match proof.truncatedAt with
        | some group => .error (.overBudget level budget group)
        | none => .ok (proof.nodes.flatMap fun visited => pairBytes visited.2, wanted)

/-- The next node of a received proof; what is left of the bytes is the cursor. -/
def loadFromBytes (_node : Node) (bytes : List UInt8) :
    Except (ProofError Node) (NodePair × List UInt8) :=
  match readPair bytes with
  | some read => .ok read
  | none => .error .endedEarly

def receivingWalk
    (hash : TreeHash) (numbering : Numbering Node) (root : Hash) (size : Nat)
    (served : ChunkRanges) (level : Nat) : Walk Node (List UInt8) :=
  { hash := hash, numbering := numbering, root := root, size := size
    ranges := served, level := level, budget := maxProofNodes, verify := true
    load := loadFromBytes }

/-- Verify a received proof to its last byte. -/
def checkProof
    (hash : TreeHash) (numbering : Numbering Node) (root : Hash) (size : Nat)
    (served : ChunkRanges) (level : Nat) (encoded : List UInt8) :
    Except (ProofError Node) (Progress Node (List UInt8)) :=
  if encoded.length % proofNodeLen ≠ 0 then
    .error (.notWholeNodes encoded.length)
  else
    ((receivingWalk hash numbering root size served level).walkProof encoded).bind fun proof =>
        if proof.truncatedAt.isSome then .error .beyondWindow
        else if proof.loader ≠ [] then .error (.trailingBytes proof.loader.length)
        else .ok proof

/-- Save nodes at the positions the tree gives them. -/
def Outboard.saveAll [DecidableEq Node]
    (outboard : Outboard Node) (nodes : List (Node × NodePair)) : Outboard Node :=
  nodes.foldl (fun saved visited => Function.update saved visited.1 (some visited.2)) outboard

def verifyProofIntoOutboard [DecidableEq Node]
    (hash : TreeHash) (numbering : Numbering Node) (outboard : Outboard Node)
    (root : Hash) (size : Nat) (served : ChunkRanges) (level : Nat)
    (encoded : List UInt8) :
    Outboard Node × Except (ProofError Node) (Bool × List ProvenSubtree) :=
  match checkProof hash numbering root size served level encoded with
  | .error reason => (outboard, .error reason)
  | .ok proof =>
    if proof.nodes.isEmpty then
      (outboard, .ok (false, proof.proven))
    else
      (outboard.saveAll proof.nodes, .ok (true, proof.proven))

/-! ## Reading back what was written -/

theorem length_pairBytes (pair : NodePair) : (pairBytes pair).length = proofNodeLen := by
  rw [pairBytes, length_append, pair.1.length_bytes, pair.2.length_bytes]
  rfl

theorem readPair_pairBytes (pair : NodePair) (rest : List UInt8) :
    readPair (pairBytes pair ++ rest) = some (pair, rest) := by
  have hlength := length_pairBytes pair
  have hlong : proofNodeLen ≤ (pairBytes pair ++ rest).length := by
    rw [length_append, hlength]
    omega
  have hleft : (pairBytes pair ++ rest).take 32 = pair.1.bytes := by
    rw [pairBytes, append_assoc]
    exact take_left' pair.1.length_bytes
  have hright : ((pairBytes pair ++ rest).drop 32).take 32 = pair.2.bytes := by
    rw [pairBytes, append_assoc, drop_left' pair.1.length_bytes]
    exact take_left' pair.2.length_bytes
  have hrest : (pairBytes pair ++ rest).drop proofNodeLen = rest :=
    drop_left' hlength
  rw [readPair, dif_pos hlong]
  simp only [hleft, hright, hrest]

theorem loads_loadFromBytes (nodes : List (Node × NodePair)) (rest : List UInt8) :
    Loads loadFromBytes (nodes.flatMap (fun visited => pairBytes visited.2) ++ rest)
      nodes rest := by
  induction nodes with
  | nil => rfl
  | cons head nodes ih =>
    refine ⟨nodes.flatMap (fun visited => pairBytes visited.2) ++ rest, ?_, ih⟩
    rw [flatMap_cons, append_assoc, loadFromBytes, readPair_pairBytes]

theorem length_flatMap_pairBytes (nodes : List (Node × NodePair)) :
    (nodes.flatMap fun visited => pairBytes visited.2).length % proofNodeLen = 0 := by
  induction nodes with
  | nil => rfl
  | cons head nodes ih =>
    rw [flatMap_cons, length_append, length_pairBytes, Nat.add_mod_left]
    exact ih

theorem saveAll_apply [DecidableEq Node]
    (outboard provider : Outboard Node) {nodes : List (Node × NodePair)}
    (hnodes : ∀ visited ∈ nodes, provider visited.1 = some visited.2) (node : Node) :
    outboard.saveAll nodes node =
      if node ∈ nodes.map Prod.fst then provider node else outboard node := by
  induction nodes generalizing outboard with
  | nil => rfl
  | cons head nodes ih =>
    have hrest := ih (Function.update outboard head.1 (some head.2))
      (fun visited hmem => hnodes visited (by simp [hmem]))
    change Outboard.saveAll (Function.update outboard head.1 (some head.2)) nodes node = _
    rw [hrest]
    by_cases hmem : node ∈ nodes.map Prod.fst
    · rw [if_pos hmem, if_pos (by simp only [map_cons, mem_cons, hmem, or_true])]
    · by_cases hhead : node = head.1
      · rw [if_neg hmem, if_pos (by simp [hhead]), hhead, Function.update_self]
        exact (hnodes head (by simp)).symm
      · rw [if_neg hmem, if_neg (by simpa [hhead] using hmem), Function.update_of_ne hhead]

theorem filterMap_provider {provider : Outboard Node} {nodes : List (Node × NodePair)}
    (hnodes : ∀ visited ∈ nodes, provider visited.1 = some visited.2) :
    (nodes.map Prod.fst).filterMap provider = nodes.map Prod.snd := by
  have hsame : nodes.filterMap (provider ∘ Prod.fst) =
      nodes.filterMap (some ∘ Prod.snd) := filterMap_congr hnodes
  rw [filterMap_map, hsame, filterMap_eq_map]

/-- An accepted proof is saved as a whole. -/
theorem verifyProofIntoOutboard_of_ok [DecidableEq Node] {hash : TreeHash}
    {numbering : Numbering Node} {root : Hash} {size : Nat} {served : ChunkRanges} {level : Nat}
    {encoded : List UInt8} {proof : Progress Node (List UInt8)}
    (h : checkProof hash numbering root size served level encoded = .ok proof)
    (outboard : Outboard Node) :
    verifyProofIntoOutboard hash numbering outboard root size served level encoded =
      (outboard.saveAll proof.nodes, .ok (!proof.nodes.isEmpty, proof.proven)) := by
  rw [verifyProofIntoOutboard, h]
  dsimp only
  split
  · rename_i hempty
    rw [isEmpty_iff.mp hempty]
    rfl
  · rename_i hnodes
    simp [hnodes]

/-! ## The trail of an exchange -/

section Exchange

variable {hash : TreeHash} {numbering : Numbering Node} {leaf : Nat → Cv}
  {provider : Outboard Node} {size : Nat} {root : Hash}

/-- The nodes an exchange over an object's tree consists of. -/
def proofTrail
    (hash : TreeHash) (numbering : Numbering Node) (leaf : Nat → Cv) (size : Nat)
    (ranges : ChunkRanges) (level : Nat) : List (Node × NodePair) :=
  trail hash numbering leaf ranges
    (fun s => s.groups == 1 || decide (s.span ≤ 2 ^ min level 63))
    (.rootOf numbering size)

variable {ranges : ChunkRanges}

theorem proofTrail_of_isEmpty (hempty : ranges.isEmpty = true) (level : Nat) :
    proofTrail hash numbering leaf size ranges level = [] := by
  apply trail_of_not
  rintro ⟨hoverlaps, -⟩
  obtain ⟨g, -, -, hg⟩ := ChunkRanges.overlaps_iff.mp hoverlaps
  exact ChunkRanges.isEmpty_iff.mp hempty g hg

theorem proofTrail_of_groups_le (hgroups : groupCount size ≤ 1) (ranges : ChunkRanges)
    (level : Nat) :
    proofTrail hash numbering leaf size ranges level = [] := by
  have hpos := groupCount_pos size
  apply trail_of_group
  change groupCount size = 1
  omega

theorem proofTrail_of_early (h : (ranges.isEmpty || decide (groupCount size ≤ 1)) = true)
    {level : Nat} : proofTrail hash numbering leaf size ranges level = [] := by
  rcases (Bool.or_eq_true _ _).mp h with hempty | hgroups
  · exact proofTrail_of_isEmpty hempty level
  · exact proofTrail_of_groups_le (of_decide_eq_true hgroups) ranges level

theorem groupCount_zero : groupCount 0 = 1 := rfl

theorem proofTrail_of_not (hskip : ¬(0 < size ∧ ranges.isEmpty = false)) (level : Nat) :
    proofTrail hash numbering leaf size ranges level = [] := by
  rcases Nat.eq_zero_or_pos size with hzero | hpos
  · refine proofTrail_of_groups_le ?_ _ _
    rw [hzero, groupCount_zero]
  · refine proofTrail_of_isEmpty ?_ _
    by_contra hnonempty
    exact hskip ⟨hpos, by simpa using hnonempty⟩

/-- A walk fed with the trail of a complete tree records it. -/
theorem walkProof_complete {σ : Type} {w : Walk Node σ}
    (hcomplete : Complete w.hash w.numbering leaf provider w.size w.root) {loader last : σ}
    (hloads : Loads w.load loader (proofTrail w.hash w.numbering leaf w.size w.ranges w.level) last)
    (hfits : (proofTrail w.hash w.numbering leaf w.size w.ranges w.level).length ≤ w.budget) :
    ∃ proven, w.walkProof loader = .ok
      { loader := last
        nodes := proofTrail w.hash w.numbering leaf w.size w.ranges w.level
        proven := proven } := by
  unfold Walk.walkProof
  split
  · have hexpects : w.Expects leaf (.rootOf w.numbering w.size) none := hcomplete.root_eq
    exact Walk.descend_complete hcomplete.below hexpects rfl hloads
      (by rw [length_nil, Nat.zero_add]; exact hfits)
  · rename_i hskip
    rw [proofTrail_of_not hskip] at hloads ⊢
    obtain rfl : loader = last := hloads
    exact ⟨[], rfl⟩

/-- A walk over a complete tree is cut short if the trail exceeds its budget. -/
theorem walkProof_truncates {σ : Type} {w : Walk Node σ}
    (hcomplete : Complete w.hash w.numbering leaf provider w.size w.root)
    (hsupplies : ∀ node pair loader, provider node = some pair →
      ∃ next, w.load node loader = .ok (pair, next)) (hover : w.budget <
      (proofTrail w.hash w.numbering leaf w.size w.ranges w.level).length) (loader : σ) :
    ∃ cut group, w.walkProof loader = .ok cut ∧ cut.truncatedAt = some group := by
  unfold Walk.walkProof
  split
  · have hexpects : w.Expects leaf (.rootOf w.numbering w.size) none := hcomplete.root_eq
    exact Walk.descend_truncates hcomplete.below hsupplies hexpects rfl
      (Nat.zero_le _) (by rw [length_nil, Nat.zero_add]; exact hover)
  · rename_i hskip
    rw [proofTrail_of_not hskip] at hover
    exact absurd hover (Nat.not_lt_zero _)

theorem loadFromOutboard_supplies (outboard : Outboard Node) (node : Node) (pair : NodePair)
    (loader : Unit) (h : outboard node = some pair) :
    ∃ next, loadFromOutboard outboard node loader = .ok (pair, next) :=
  ⟨loader, by rw [loadFromOutboard, h]⟩

section Sides

variable (hcomplete : Complete hash numbering leaf provider size root) (requested : ChunkRanges)

include hcomplete

/-- Clamping the request to the object does not change the exchange. -/
theorem proofTrail_intersect (level : Nat) :
    proofTrail hash numbering leaf size
        (requested.intersect (.single 0 (groupCount size))) level =
      proofTrail hash numbering leaf size requested level := by
  have hsame : ∀ g, g < groupCount size →
      (g ∈ requested.intersect (.single 0 (groupCount size)) ↔ g ∈ requested) := by
    intro g hg
    rw [ChunkRanges.mem_intersect, ChunkRanges.mem_single]
    constructor
    · intro h
      exact h.1
    · intro h
      exact ⟨h, Nat.zero_le g, hg⟩
  exact trail_congr hsame hcomplete.below (Nat.zero_add _).le

/-- The provider serves the trail if it fits the budget. -/
theorem encodeCompleteProof_of_le {level budget : Nat}
    (hfits : (proofTrail hash numbering leaf size requested level).length ≤ budget) :
    encodeCompleteProof hash numbering root size requested level budget provider =
      .ok ((proofTrail hash numbering leaf size requested level).flatMap
          (fun visited => pairBytes visited.2),
        requested.intersect (.single 0 (groupCount size))) := by
  have hclamp := proofTrail_intersect hcomplete requested level
  rw [← hclamp] at hfits ⊢
  unfold encodeCompleteProof
  dsimp only
  split
  · rename_i hearly
    rw [proofTrail_of_early hearly]
    rfl
  · obtain ⟨last, hloads⟩ := exists_loads
      (fun visited hmem loader => loadFromOutboard_supplies provider _ _ loader
        (hcomplete.below.outboard_of_mem_trail hmem)) ()
    obtain ⟨proven, hwalk⟩ := walkProof_complete
      (w := servingWalk hash numbering root size
        (requested.intersect (.single 0 (groupCount size))) level budget provider)
      hcomplete hloads hfits
    rw [hwalk]
    rfl

/-- The provider refuses a trail beyond the budget. -/
theorem encodeCompleteProof_of_lt {level budget : Nat}
    (hover : budget < (proofTrail hash numbering leaf size requested level).length) :
    ∃ group, encodeCompleteProof hash numbering root size requested level budget
      provider = .error (.overBudget level budget group) := by
  have hclamp := proofTrail_intersect hcomplete requested level
  rw [← hclamp] at hover
  unfold encodeCompleteProof
  dsimp only
  split
  · rename_i hearly
    rw [proofTrail_of_early hearly] at hover
    exact absurd hover (Nat.not_lt_zero budget)
  · obtain ⟨cut, group, hwalk, hcut⟩ := walkProof_truncates
      (w := servingWalk hash numbering root size
        (requested.intersect (.single 0 (groupCount size))) level budget provider)
      hcomplete (loadFromOutboard_supplies provider) hover ()
    refine ⟨group, ?_⟩
    rw [hwalk]
    change (match cut.truncatedAt with | some group => _ | none => _) = _
    rw [hcut]

/-- The requester accepts the trail. -/
theorem checkProof_proofTrail {level : Nat}
    (hfits : (proofTrail hash numbering leaf size requested level).length ≤ maxProofNodes) :
    ∃ proven, checkProof hash numbering root size requested level
        ((proofTrail hash numbering leaf size requested level).flatMap
          fun visited => pairBytes visited.2) =
      .ok { loader := []
            nodes := proofTrail hash numbering leaf size requested level
            proven := proven } := by
  have hloads := loads_loadFromBytes (proofTrail hash numbering leaf size requested level) []
  rw [append_nil] at hloads
  obtain ⟨proven, hwalk⟩ := walkProof_complete
    (w := receivingWalk hash numbering root size requested level) hcomplete hloads hfits
  refine ⟨proven, ?_⟩
  rw [checkProof, if_neg (not_not.mpr (length_flatMap_pairBytes _)), hwalk]
  rfl

end Sides

/-- What a provider with a complete outboard serves within its budget, the
requester accepts to the last byte, and the nodes it saves are the provider's. -/
theorem proof_round_trip [DecidableEq Node]
    (hcomplete : Complete hash numbering leaf provider size root)
    (requested : ChunkRanges) (level : Nat) {budget : Nat}
    (hbudget : budget ≤ maxProofNodes)
    (hpasses : ∀ group, encodeCompleteProof hash numbering root size requested level
      budget provider ≠ .error (.overBudget level budget group))
    (outboard : Outboard Node) :
    ∃ encoded served received wrote proven, ∃ nodes : List Node,
      encodeCompleteProof hash numbering root size requested level budget provider =
        .ok (encoded, served) ∧
      verifyProofIntoOutboard hash numbering outboard root size requested level encoded =
        (received, .ok (wrote, proven)) ∧
      encoded = (nodes.filterMap provider).flatMap pairBytes ∧
      ∀ node, received node = if node ∈ nodes then provider node else outboard node := by
  have hfits : (proofTrail hash numbering leaf size requested level).length ≤ budget := by
    by_contra hover
    obtain ⟨group, herror⟩ :=
      encodeCompleteProof_of_lt hcomplete requested (not_le.mp hover)
    exact hpasses group herror
  have hprovider : ∀ visited ∈ proofTrail hash numbering leaf size requested level,
      provider visited.1 = some visited.2 := fun visited hmem =>
    hcomplete.below.outboard_of_mem_trail hmem
  obtain ⟨proven, hcheck⟩ :=
    checkProof_proofTrail hcomplete requested (hfits.trans hbudget)
  refine ⟨_, _, _, _, _,
    (proofTrail hash numbering leaf size requested level).map Prod.fst,
    encodeCompleteProof_of_le hcomplete requested hfits,
    verifyProofIntoOutboard_of_ok hcheck outboard, ?_, ?_⟩
  · rw [filterMap_provider hprovider, flatMap_map]
  · intro node
    exact saveAll_apply outboard provider hprovider node

end Exchange

/-! ## A blob of 40000 zero bytes -/

namespace ZeroBlob

def digest (n : Nat) : List UInt8 :=
  (List.range 32).map fun i => UInt8.ofNat (n >>> (8 * (31 - i)))

theorem length_digest (n : Nat) : (digest n).length = 32 := by
  simp [digest]

def cv (n : Nat) : Cv := ⟨digest n, length_digest n⟩

def address (n : Nat) : Hash := ⟨digest n, length_digest n⟩

/-- The chaining values of its three groups. -/
def groupCv : Nat → Cv
  | 0 => cv 0x97d5904f808b1050b96e65fd7d254feafc434931da41d1215415bb2adc890475
  | 1 => cv 0x1bbec3b0da531ff4151be9809d18c7a4da37e75ca806a08c9635c5d53057043e
  | _ => cv 0x31532479b1e0ee703e52193d9c3dc483c36a37ef568f21680b165404b8a44c1b

/-- The value of its first two groups. -/
def firstCv : Cv :=
  cv 0xee30137d2224ac86f79680abb2e7a033b746753664993356b8f05cbe11e99772

def root : Hash :=
  address 0x2a1d371e800520f76ffb59fcdb4760a3ec7243e57217020602b65bc76db29fdc

/-- BLAKE3 on the pairs of the blob's tree. -/
def hash : TreeHash where
  join left right :=
    if left = groupCv 0 ∧ right = groupCv 1 then firstCv
    else cv 0x672cf6255bbf8c7bdd44e462aa171b518d426bf47783cfdbd21264e2d2c3be02
  joinRoot left right :=
    if left = firstCv ∧ right = groupCv 2 then root
    else address 0xac169ead597dac88b2d7223edd85c9895392532cfc7a3c5c29a3fbe3ccba37f2

def trailingOnes : Nat → Nat → Nat
  | 0, _ => 0
  | bits + 1, n => if n % 2 = 1 then trailingOnes bits (n / 2) + 1 else 0

/-- The in-order node numbers of the tree library, over 1 KiB chunks. -/
def numbering : Numbering Nat where
  root size := 2 ^ (Nat.clog 2 (groupCount size) + 3) - 1
  leftChild node :=
    match trailingOnes 64 node with
    | 0 => none
    | level + 1 => some (node - 2 ^ level)
  rightChild node :=
    match trailingOnes 64 node with
    | 0 => none
    | level + 1 => some (node + 2 ^ level)

def outboard : Outboard Nat
  | 15 => some (groupCv 0, groupCv 1)
  | 31 => some (firstCv, groupCv 2)
  | _ => none

theorem complete : Complete hash numbering groupCv outboard 40000 root where
  below := completeBelow_of_holdsBelow (by decide +kernel)
  root_eq := by
    intro left right hchildren
    have hsplits := Subtree.splits_of_children hchildren
    unfold Subtree.value
    rw [hsplits.left_start, hsplits.left_groups, hsplits.right_start, hsplits.right_groups]
    decide +kernel

def request : ChunkRanges := .single 0 3

theorem encode_isOk :
    (encodeCompleteProof hash numbering root 40000 request 0 maxProofNodes
      outboard).isOk = true := by
  decide +kernel

end ZeroBlob

/-- The proof of the whole blob, sent to a requester that holds nothing. -/
theorem proof_round_trip_zeroBlob :
    ∃ encoded served received wrote proven, ∃ nodes : List Nat,
      encodeCompleteProof ZeroBlob.hash ZeroBlob.numbering ZeroBlob.root 40000
        ZeroBlob.request 0 maxProofNodes ZeroBlob.outboard = .ok (encoded, served) ∧
      verifyProofIntoOutboard ZeroBlob.hash ZeroBlob.numbering (fun _ => none)
        ZeroBlob.root 40000 ZeroBlob.request 0 encoded = (received, .ok (wrote, proven)) ∧
      encoded = (nodes.filterMap ZeroBlob.outboard).flatMap pairBytes ∧
      ∀ node, received node = if node ∈ nodes then ZeroBlob.outboard node else none :=
  proof_round_trip ZeroBlob.complete ZeroBlob.request 0 le_rfl (fun group herror => by
      have hok := ZeroBlob.encode_isOk
      rw [herror] at hok
      cases hok)
    fun _ => none

end Synch.Proofs
