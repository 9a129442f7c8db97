import Synch.Transparency.Nodes

/-!
# A full tile is not pinned to the root

A full level-0 tile is compared with the node that its parent tile stores for
it, and the parent tile is fetched again for that comparison.  A source that
answers the second request for the parent with a forgery is believed.
-/

namespace Synch.Transparency

open List Synch.Support

/-- A hash repeated. -/
def runOf (hash : Hash) (n : Nat) : List UInt8 :=
  (List.replicate n hash.bytes).flatten

@[simp] theorem length_runOf (hash : Hash) (n : Nat) : (runOf hash n).length = n * 32 := by
  simp [runOf, hash.length_bytes]

theorem drop_runOf (hash : Hash) (i n : Nat) :
    (runOf hash n).drop (i * 32) = runOf hash (n - i) := by
  induction i generalizing n with
  | zero => simp
  | succ i ih =>
    cases n with
    | zero => simp [runOf]
    | succ n =>
      have hstep : (runOf hash (n + 1)).drop 32 = runOf hash n := by
        rw [runOf, replicate_succ, flatten_cons, ← hash.length_bytes, drop_left]
        rfl
      rw [Nat.succ_mul, Nat.add_comm, ← drop_drop, hstep, ih, Nat.add_sub_add_right]

variable {hash : Hash} {n : Nat}

theorem take_runOf (h : 0 < n) : (runOf hash n).take 32 = hash.bytes := by
  obtain ⟨n, rfl⟩ := Nat.exists_eq_succ_of_ne_zero h.ne'
  rw [runOf, replicate_succ, flatten_cons, ← hash.length_bytes, take_left]

theorem hashAt_runOf {i : Nat} (h : i < n) : hashAt (runOf hash n) i = hash := by
  apply Hash.eq_of_bytes
  rw [hashAt_bytes (by rw [length_runOf]; omega), drop_runOf, take_runOf (by omega)]

variable {sha256 : List UInt8 → Hash}

/-- Where a hash joins with itself to itself, a full tile of it folds to it. -/
theorem fold_fullTile_runOf (hnode : nodeHash sha256 hash hash = hash) :
    fold sha256 (runOf hash 256) = some hash := by
  rw [fold_fullTile (length_runOf _ _),
    treeValue_const _ _ hnode (by decide) fun i _ hi => hashAt_runOf (by omega)]

/-- The small parts of a tree come after its full tiles. -/
theorem full_before_small {level position size tile : Nat} (hlevel : level < 8)
    (haligned : position % 2 ^ (level + 1) = 0) (hwide : size < position + 2 ^ (level + 1))
    (hfull : tile * 256 + 256 ≤ size) : tile * 256 + 256 ≤ position := by
  have hwhole : 2 ^ (level + 1) ∣ (tile + 1) * 256 :=
    Nat.dvd_trans (Nat.pow_dvd_pow 2 hlevel) (Nat.dvd_mul_left (2 ^ 8) (tile + 1))
  obtain ⟨a, ha⟩ := Nat.dvd_of_mod_eq_zero haligned
  obtain ⟨b, hb⟩ := hwhole
  have hab : b < a + 1 := by
    apply Nat.lt_of_mul_lt_mul_left (a := 2 ^ (level + 1))
    rw [Nat.mul_succ]
    omega
  have hle : 2 ^ (level + 1) * b ≤ 2 ^ (level + 1) * a := Nat.mul_le_mul_left _ (by omega)
  omega

theorem foldParts_const (hnode : nodeHash sha256 hash hash = hash) (hpos : 0 < n) :
    foldParts sha256 (List.replicate n hash) = some hash := by
  induction n with
  | zero => exact absurd hpos (by decide)
  | succ n ih =>
    by_cases hzero : n = 0
    · subst hzero
      rfl
    · have hne : List.replicate n hash ≠ [] := by simp [hzero]
      rw [replicate_succ, foldParts_cons hne, ih (by omega), Option.map_some, hnode]

section OneHash

variable {σ : Type} {source : TileSource σ} {size : Nat} {hash : Hash}

variable {index level : Nat} {reader : Reader σ}

/-- Where the tile of a node holds one hash, that hash is stored for the node. -/
theorem returns_storedHash_const (hnode : nodeHash sha256 hash hash = hash) (hsize : size < 2 ^ 64)
    (hinside : (index + 1) * 2 ^ level ≤ size) {next : Reader σ}
    (htile : Returns (hashTile source size (level / 8) (tileOf level index)) reader
      (runOf hash (widthAt size (level / 8) (tileOf level index))) next) :
    Returns (storedHash sha256 source size level index) reader hash next := by
  have hslice := offsetIn_le_width hinside
  rw [Nat.succ_mul] at hslice
  have hstored : Returns (storedHash sha256 source size level index) reader _ next :=
    returns_storedHash hsize hinside (length_runOf _ _) htile
  rw [treeValue_const _ _ hnode (Nat.two_pow_pos _) fun i _ hi => hashAt_runOf (by omega)] at hstored
  exact hstored

/-- A reader whose source answers every request of a tree with one hash. -/
def Answers (source : TileSource σ) (hash : Hash) (state : σ) (path : TilePath) : Prop :=
  source.fetch path state = (.ok (some (runOf hash path.width)), state)

theorem Answers.returns_hashTile {tileLevel : Nat} (hwidth : widthAt size tileLevel index ≠ 0)
    (h : Answers source hash reader.source
      ⟨.hashes tileLevel, index, widthAt size tileLevel index⟩) :
    Returns (hashTile source size tileLevel index) reader
      (runOf hash (widthAt size tileLevel index)) reader :=
  Transparency.returns_hashTile hwidth h (length_runOf _ _)

/-- A body is accepted once the remembered tile holds its leaf hash. -/
theorem returns_verifyLeaf (hindex : index < size) {body : List UInt8} {root : Hash}
    {next : Reader σ}
    (hauth : Returns (authenticateTile sha256 source size 0 (index / 256) root) reader () next)
    (htiles : next.leafTiles = [⟨root, index / 256, runOf (leafHash sha256 body) 256⟩]) :
    Returns (verifyLeaf sha256 source size index body root) reader () next := by
  have hdata : Returns (leafTile sha256 source size (index / 256) root) next
      (runOf (leafHash sha256 body) 256) next := by
    have hheld : Returns (rememberedLeafTile root (index / 256)) next
        (some (runOf (leafHash sha256 body) 256)) next := by
      change (_, _) = _
      simp [rememberedIn, htiles]
    exact hheld.bind returns_pure
  have hslice : slice (runOf (leafHash sha256 body) 256) ((index - index / 256 * 256) * 32)
      ((index - index / 256 * 256) * 32 + 32) = some (leafHash sha256 body).bytes := by
    rw [slice_eq (Nat.le_add_right _ _) (by rw [length_runOf]; omega), drop_runOf,
      Nat.add_sub_cancel_left, take_runOf (by omega)]
  apply (returns_refuseIf (Nat.not_le.mpr hindex)).bind
  apply hauth.bind
  apply hdata.bind
  exact (returns_orRefuse hslice).bind (returns_refuseIf (not_not.mpr rfl))

end OneHash

/-! ## The forgery -/

/-- The hash of the honest tiles. -/
def sealedHash : Hash := .ofNat 1

def forgedHash : Hash := .ofNat 0

/-- A hash that joins only honest halves to an honest node. -/
def sealSha256 (bytes : List UInt8) : Hash :=
  if bytes = 0x01 :: (sealedHash.bytes ++ sealedHash.bytes) then sealedHash else forgedHash

theorem sealed_ne_forged : forgedHash ≠ sealedHash := by decide +kernel

theorem nodeHash_sealed : nodeHash sealSha256 sealedHash sealedHash = sealedHash := by
  rw [nodeHash, sealSha256, if_pos rfl]

theorem nodeHash_of_forged {left right : Hash} (h : left = forgedHash ∨ right = forgedHash) :
    nodeHash sealSha256 left right = forgedHash := by
  rw [nodeHash, sealSha256, if_neg]
  intro heq
  obtain ⟨hleft, hright⟩ := append_inj (cons.inj heq).2
    (left.length_bytes.trans sealedHash.length_bytes.symm)
  rcases h with rfl | rfl
  · exact sealed_ne_forged (Hash.eq_of_bytes hleft)
  · exact sealed_ne_forged (Hash.eq_of_bytes hright)

theorem leafHash_forged (body : List UInt8) : leafHash sealSha256 body = forgedHash := by
  rw [leafHash, sealSha256, if_neg]
  intro heq
  exact absurd (cons.inj heq).1 (by decide)

/-- A walk from the forged hash stays at it. -/
theorem not_reaches_sealed {climb : Climb} (h : climb.hash = forgedHash) (path : List Hash) :
    ¬Reaches sealSha256 climb path sealedHash := by
  induction path generalizing climb with
  | nil =>
    rw [reaches_nil, h]
    exact fun hend => sealed_ne_forged hend.2
  | cons sibling path ih =>
    rw [reaches_cons]
    intro hnext
    refine ih ?_ hnext.2
    apply nodeHash_of_forged
    unfold Climb.pair
    split
    · exact .inr h
    · exact .inl h

/-- A source that serves honest tiles until a full level-0 tile is asked for, and
forged ones from then on. -/
def forgingSource (tile : Nat) : TileSource Bool where
  fetch path forging :=
    let now := forging || (path.level = .hashes 0 && path.index = tile)
    (.ok (some (runOf (if now then forgedHash else sealedHash) path.width)), now)
  checkpointSize forging := (.ok none, forging)

theorem answers_forged (tile : Nat) (path : TilePath) :
    Answers (forgingSource tile) forgedHash true path := rfl

theorem answers_sealed
    {tile : Nat} {path : TilePath} (h : ¬(path.level = .hashes 0 ∧ path.index = tile)) :
    Answers (forgingSource tile) sealedHash false path := by
  have hhonest : (false || (decide (path.level = .hashes 0) && decide (path.index = tile))) =
      false := by
    rw [Bool.false_or, ← Bool.decide_and]
    exact decide_eq_false h
  simp only [Answers, forgingSource, hhonest]
  rfl

section Forgery

variable {size tile : Nat}

variable {level : Nat} {reader : Reader Bool}

/-- Before the forgery a node outside the forged tile is honest. -/
theorem returns_storedHash_sealed (hsize : size < 2 ^ 64) {index : Nat}
    (hinside : (index + 1) * 2 ^ level ≤ size)
    (hother : ¬(level / 8 = 0 ∧ tileOf level index = tile)) (h : reader.source = false) :
    Returns (storedHash sealSha256 (forgingSource tile) size level index) reader
      sealedHash reader := by
  apply returns_storedHash_const nodeHash_sealed hsize hinside
  apply Answers.returns_hashTile (widthAt_tileOf hinside)
  rw [h]
  apply answers_sealed
  rintro ⟨hlevel, hindex⟩
  exact hother ⟨TileLevel.hashes.inj hlevel, hindex⟩

theorem returns_root_sealed (hsize : size < 2 ^ 64) (hfull : tile * 256 + 256 ≤ size)
    (h : reader.source = false) :
    Returns (root sealSha256 (forgingSource tile) size) reader sealedHash reader := by
  have hzero : size ≠ 0 := by omega
  have hnonempty : ¬0 ≥ size := by omega
  unfold root
  rw [if_neg hzero]
  apply (returns_refuseIf hnonempty).bind
  have hparts : Returns ((subtreeParts 0 size).mapM fun part =>
      storedHash sealSha256 (forgingSource tile) size part.1 (part.2 / 2 ^ part.1)) reader
      ((subtreeParts 0 size).map fun _ => sealedHash) reader := by
    apply returns_mapM
    rintro ⟨level, position⟩ hpart
    obtain ⟨haligned, -, hwide⟩ := mem_subtreeParts (Nat.zero_mod _) hpart
    obtain ⟨hself, hinside⟩ := index_of_mem_subtreeParts hpart
    simp only at haligned hwide hself hinside ⊢
    refine returns_storedHash_sealed hsize hinside ?_ h
    · rintro ⟨hlevel, hindex⟩
      have hsmall : level < 8 := by omega
      have hafter := full_before_small hsmall haligned hwide hfull
      rw [tileOf, Nat.mod_eq_of_lt hsmall, hself] at hindex
      omega
  apply hparts.bind
  apply returns_orRefuse
  rw [map_const']
  apply foldParts_const nodeHash_sealed
  rw [subtreeParts_cons (by omega) (Nat.zero_mod _)]
  exact Nat.succ_pos _

/-- A full tile is a node of the tree. -/
theorem inside_of_full {position : Nat} (h : widthAt size level position = 256) :
    (position + 1) * 2 ^ (8 * (level + 1)) ≤ size := by
  have hpow : 2 ^ (8 * (level + 1)) = 256 * 2 ^ (8 * level) := by
    rw [Nat.mul_succ, Nat.pow_add, Nat.mul_comm]
  have hrow : (position + 1) * 256 ≤ size / 2 ^ (8 * level) := by
    unfold widthAt at h
    omega
  rw [Nat.le_div_iff_mul_le (Nat.two_pow_pos _)] at hrow
  rw [hpow, ← Nat.mul_assoc]
  exact hrow

/-- The tiles to check above a full tile lie higher and are not empty. -/
theorem mem_chainUp {authenticated : List (Hash × Nat × Nat)} {top : Hash} {position : Nat}
    (hwidth : widthAt size level position ≠ 0) {place : Nat × Nat}
    (h : place ∈ chainUp size authenticated top level position) :
    widthAt size place.1 place.2 ≠ 0 ∧ level ≤ place.1 := by
  fun_induction chainUp size authenticated top level position with
  | case1 level position hheld => cases h
  | case2 level position hnew ih =>
    rw [mem_cons] at h
    rcases h with rfl | habove
    · exact ⟨hwidth, le_rfl⟩
    · split at habove
      · cases habove
      · rename_i hfull
        have hinside := inside_of_full (not_not.mp hfull)
        have hnext : widthAt size (level + 1) (position / 256) ≠ 0 := by
          rw [← Nat.le_div_iff_mul_le (Nat.two_pow_pos _)] at hinside
          unfold widthAt
          omega
        obtain ⟨hplace, hlevel⟩ := ih hfull hnext habove
        exact ⟨hplace, by omega⟩

/-- The reader before the forgery. -/
structure Untouched (reader : Reader Bool) : Prop where
  honest : reader.source = false
  nothing : reader.leafTiles = []

theorem returns_checkTile_sealed (hsize : size < 2 ^ 64) (hfull : tile * 256 + 256 ≤ size)
    {place : Nat × Nat} (hwidth : widthAt size place.1 place.2 ≠ 0) (hlevel : 1 ≤ place.1)
    (h : Untouched reader) :
    ∃ next, Returns (checkTile sealSha256 (forgingSource tile) size sealedHash place)
      reader () next ∧ Untouched next := by
  have hmark : Returns (markAuthenticated sealedHash place.1 place.2) reader () _ :=
    returns_change
  refine ⟨_, ?_, (⟨h.honest, h.nothing⟩ : Untouched { reader with
    authenticated := (sealedHash, place.1, place.2) :: reader.authenticated })⟩
  unfold checkTile
  split
  · rename_i hwhole
    have htile : Returns (hashTile (forgingSource tile) size place.1 place.2) reader
        (runOf sealedHash 256) reader := by
      rw [← hwhole]
      apply Answers.returns_hashTile hwidth
      rw [h.honest]
      apply answers_sealed
      rintro ⟨hzero, -⟩
      have := TileLevel.hashes.inj hzero
      omega
    have hparent : Returns (storedHash sealSha256 (forgingSource tile) size
        (8 * (place.1 + 1)) place.2) reader sealedHash reader := by
      apply returns_storedHash_sealed hsize (inside_of_full hwhole) _ h.honest
      rintro ⟨hzero, -⟩
      omega
    have hcheck : Returns (checkFullTile sealSha256 (forgingSource tile) size sealedHash
        place.1 place.2) reader () reader := by
      apply htile.bind
      apply hparent.bind
      apply (returns_orRefuse (fold_fullTile_runOf nodeHash_sealed)).bind
      apply (returns_refuseIf (not_not.mpr rfl)).bind
      rw [if_neg (by omega)]
      exact returns_pure
    exact hcheck.bind hmark
  · rw [if_neg (by omega)]
    have hcheck : Returns (checkFrontierTile sealSha256 (forgingSource tile) size sealedHash
        place.1 place.2) reader () reader := by
      apply (returns_root_sealed hsize hfull h.honest).bind
      exact returns_refuseIf (not_not.mpr rfl)
    exact hcheck.bind hmark

theorem returns_checks_sealed (hsize : size < 2 ^ 64) (hfull : tile * 256 + 256 ≤ size)
    {places : List (Nat × Nat)}
    (hplaces : ∀ place ∈ places, widthAt size place.1 place.2 ≠ 0 ∧ 1 ≤ place.1)
    (h : Untouched reader) :
    ∃ next, Returns (places.forM (checkTile sealSha256 (forgingSource tile) size sealedHash))
      reader () next ∧ Untouched next := by
  induction places generalizing reader with
  | nil => exact ⟨reader, returns_pure, h⟩
  | cons place places ih =>
    obtain ⟨hwidth, hlevel⟩ := hplaces place mem_cons_self
    obtain ⟨middle, hfirst, hmiddle⟩ :=
      returns_checkTile_sealed hsize hfull hwidth hlevel h
    obtain ⟨next, hrest, hnext⟩ :=
      ih (fun place hplace => hplaces place (mem_cons_of_mem _ hplace)) hmiddle
    exact ⟨next, hfirst.bind hrest, hnext⟩

theorem widthAt_full (hfull : tile * 256 + 256 ≤ size) : widthAt size 0 tile = 256 := by
  rw [widthAt_zero]
  omega

/-- The forged tile folds to the node that the forged parent tile stores. -/
theorem returns_checkTile_forged (hsize : size < 2 ^ 64) (hfull : tile * 256 + 256 ≤ size)
    (h : Untouched reader) :
    ∃ next, Returns (checkTile sealSha256 (forgingSource tile) size sealedHash (0, tile))
      reader () next ∧ next.leafTiles = [⟨sealedHash, tile, runOf forgedHash 256⟩] := by
  have hwidth := widthAt_full hfull
  have htile : Returns (hashTile (forgingSource tile) size 0 tile) reader
      (runOf forgedHash 256) { reader with source := true } := by
    apply returns_hashTile (by omega) _ (by simp [hwidth])
    simp [forgingSource, h.honest, hwidth]
  have hinside := inside_of_full hwidth
  have hforged : nodeHash sealSha256 forgedHash forgedHash = forgedHash :=
    nodeHash_of_forged (.inl rfl)
  have hparent : Returns (storedHash sealSha256 (forgingSource tile) size (8 * (0 + 1)) tile)
      { reader with source := true } forgedHash { reader with source := true } := by
    apply returns_storedHash_const hforged hsize hinside
    exact Answers.returns_hashTile (widthAt_tileOf hinside) (answers_forged tile _)
  have hcheck : Returns (checkFullTile sealSha256 (forgingSource tile) size sealedHash 0 tile)
      reader () { reader with
        source := true, leafTiles := [⟨sealedHash, tile, runOf forgedHash 256⟩] } := by
    apply htile.bind
    apply hparent.bind
    apply (returns_orRefuse (fold_fullTile_runOf hforged)).bind
    apply (returns_refuseIf (not_not.mpr rfl)).bind
    rw [if_pos rfl]
    change (_, _) = _
    simp [rememberIn, h.nothing, leafTileMemo]
  refine ⟨{ reader with
    source := true
    authenticated := (sealedHash, 0, tile) :: reader.authenticated
    leafTiles := [⟨sealedHash, tile, runOf forgedHash 256⟩] }, ?_, rfl⟩
  unfold checkTile
  rw [if_pos hwidth]
  exact hcheck.bind returns_change

/-- The forged tile is authenticated against the honest root. -/
theorem returns_authenticateTile_forged (hsize : size < 2 ^ 64) (hfull : tile * 256 + 256 ≤ size) :
    ∃ next, Returns (authenticateTile sealSha256 (forgingSource tile) size 0 tile sealedHash)
      (Reader.new false) () next ∧
      next.leafTiles = [⟨sealedHash, tile, runOf forgedHash 256⟩] := by
  have hchain : chainUp size [] sealedHash 0 tile =
      (0, tile) :: chainUp size [] sealedHash 1 (tile / 256) := by
    rw [chainUp, if_neg not_mem_nil, if_neg (not_not.mpr (widthAt_full hfull))]
  have hnext : widthAt size 1 (tile / 256) ≠ 0 := by
    have hinside := inside_of_full (widthAt_full hfull)
    rw [← Nat.le_div_iff_mul_le (Nat.two_pow_pos _)] at hinside
    unfold widthAt
    omega
  obtain ⟨middle, hchecks, hmiddle⟩ := returns_checks_sealed hsize hfull
    (fun place (hplace : place ∈ (chainUp size [] sealedHash 1 (tile / 256)).reverse) =>
      mem_chainUp hnext (mem_reverse.mp hplace))
    (⟨rfl, rfl⟩ : Untouched (Reader.new false))
  obtain ⟨next, hforge, htiles⟩ := returns_checkTile_forged hsize hfull hmiddle
  refine ⟨next, ?_, htiles⟩
  apply returns_read.bind
  change Returns ((chainUp size [] sealedHash 0 tile).reverse.forM _) _ _ _
  rw [hchain, reverse_cons, forM_eq_forM, forM_append]
  exact hchecks.bind (hforge.bind returns_pure)

/-- A body is accepted in a full tile although its leaf hash is not in the tree. -/
theorem verifyLeaf_forged (hsize : size < 2 ^ 64) {index : Nat}
    (hfull : index / 256 * 256 + 256 ≤ size) (body : List UInt8) :
    ((verifyLeaf sealSha256 (forgingSource (index / 256)) size index body
      sealedHash).outcome (Reader.new false)).1 = .ok () := by
  obtain ⟨next, hauth, htiles⟩ := returns_authenticateTile_forged hsize hfull
  rw [← leafHash_forged body] at htiles
  exact congrArg Prod.fst (returns_verifyLeaf (by omega) hauth htiles)

end Forgery

/-! ## Any body under any root -/

section AnyBody

variable (sha256 : List UInt8 → Hash) (body : List UInt8) (root : Hash)

/-- A level-0 tile that holds the leaf hash of a body. -/
def bodyTile : List UInt8 :=
  runOf (leafHash sha256 body) 256

def bodyNode : Hash :=
  treeValue (nodeHash sha256) (hashAt (bodyTile sha256 body)) 0 256

/-- A source that serves the root, then a tile that holds the body's leaf hash, and
then the node over that tile, whatever is asked. -/
def scriptedSource : TileSource Nat where
  fetch _ served :=
    let answer := match served with
      | 0 => root.bytes
      | 1 => bodyTile sha256 body
      | _ => (bodyNode sha256 body).bytes
    (.ok (some answer), served + 1)
  checkpointSize served := (.ok none, served)

variable {sha256 body root}

theorem fold_bodyTile : fold sha256 (bodyTile sha256 body) = some (bodyNode sha256 body) :=
  fold_fullTile (by simp [bodyTile])

/-- In a tree of 256 leaves the node over them is what the level-1 tile holds. -/
theorem returns_storedHash_top
    {σ : Type} {source : TileSource σ} {hash : Hash} {reader : Reader σ} {next : σ}
    (hfetch : source.fetch ⟨.hashes 1, 0, 1⟩ reader.source = (.ok (some hash.bytes), next)) :
    Returns (storedHash sha256 source 256 8 0) reader hash { reader with source := next } := by
  have hslice : slice hash.bytes 0 32 = some hash.bytes := by
    rw [slice_eq (Nat.zero_le _) hash.length_bytes.ge, drop_zero, Nat.sub_zero,
      take_of_length_le hash.length_bytes.le]
  have hfold : fold sha256 hash.bytes = some hash := by
    rw [fold, dif_pos hash.length_bytes]
  apply (returns_refuseIf (by decide)).bind
  apply (returns_hashTile (by decide) hfetch hash.length_bytes).bind
  exact (returns_orRefuse hslice).bind (returns_orRefuse hfold)

theorem returns_root_top
    {σ : Type} {source : TileSource σ} {hash : Hash} {reader : Reader σ} {next : σ}
    (hfetch : source.fetch ⟨.hashes 1, 0, 1⟩ reader.source = (.ok (some hash.bytes), next)) :
    Returns (Transparency.root sha256 source 256) reader hash { reader with source := next } := by
  have hparts : subtreeParts 0 256 = [(8, 0)] := by decide +kernel
  have hhashes : Returns ((subtreeParts 0 256).mapM fun part =>
      storedHash sha256 source 256 part.1 (part.2 / 2 ^ part.1)) reader [hash]
      { reader with source := next } := by
    rw [hparts, mapM_cons, mapM_nil]
    exact (returns_storedHash_top hfetch).bind (returns_pure.bind returns_pure)
  apply (returns_refuseIf (by decide)).bind
  exact hhashes.bind (returns_orRefuse rfl)

/-- Any body is accepted as leaf 0 of a tree of 256 leaves, under any root and any
hash function. -/
theorem verifyLeaf_scripted :
    ((verifyLeaf sha256 (scriptedSource sha256 body root) 256 0 body root).outcome
      (Reader.new 0)).1 = .ok () := by
  have hchain : chainUp 256 [] root 0 0 = [(0, 0), (1, 0)] := by
    rw [chainUp, if_neg not_mem_nil, if_neg (by decide), chainUp,
      if_neg not_mem_nil, if_pos (by decide)]
  let source := scriptedSource sha256 body root
  have htop : Returns (checkTile sha256 source 256 root (1, 0)) (Reader.new 0) ()
      ⟨1, [(root, 1, 0)], []⟩ := by
    have hcheck : Returns (checkFrontierTile sha256 source 256 root 1 0) (Reader.new 0) ()
        ⟨1, [], []⟩ :=
      (returns_root_top rfl).bind (returns_refuseIf (not_not.mpr rfl))
    exact hcheck.bind returns_change
  have hleaves : Returns (checkTile sha256 source 256 root (0, 0)) ⟨1, [(root, 1, 0)], []⟩ ()
      ⟨3, [(root, 0, 0), (root, 1, 0)], [⟨root, 0, bodyTile sha256 body⟩]⟩ := by
    have htile : Returns (hashTile source 256 0 0) ⟨1, [(root, 1, 0)], []⟩
        (bodyTile sha256 body) ⟨2, [(root, 1, 0)], []⟩ :=
      returns_hashTile (by decide) rfl (by simp [bodyTile, widthAt])
    have hparent : Returns (storedHash sha256 source 256 8 0) ⟨2, [(root, 1, 0)], []⟩
        (bodyNode sha256 body) ⟨3, [(root, 1, 0)], []⟩ := returns_storedHash_top rfl
    have hcheck : Returns (checkFullTile sha256 source 256 root 0 0) ⟨1, [(root, 1, 0)], []⟩ ()
        ⟨3, [(root, 1, 0)], [⟨root, 0, bodyTile sha256 body⟩]⟩ := by
      apply htile.bind
      apply hparent.bind
      apply (returns_orRefuse fold_bodyTile).bind
      exact (returns_refuseIf (not_not.mpr rfl)).bind returns_change
    exact hcheck.bind returns_change
  have hauth : Returns (authenticateTile sha256 source 256 0 0 root) (Reader.new 0) ()
      ⟨3, [(root, 0, 0), (root, 1, 0)], [⟨root, 0, bodyTile sha256 body⟩]⟩ := by
    apply returns_read.bind
    change Returns ((chainUp 256 [] root 0 0).reverse.forM _) _ _ _
    rw [hchain]
    exact htop.bind (hleaves.bind returns_pure)
  exact congrArg Prod.fst (returns_verifyLeaf (by decide) hauth rfl)

end AnyBody

/-! ## When an accepted leaf is in the tree -/

/-- A call that binds a body to a root. -/
structure LeafCall where
  index : Nat
  body : List UInt8
  root : Hash

def readerAfter {σ : Type} (sha256 : List UInt8 → Hash) (source : TileSource σ) (size : Nat)
    (calls : List LeafCall) (reader : Reader σ) : Reader σ :=
  calls.foldl (fun reader call =>
    ((verifyLeaf sha256 source size call.index call.body call.root).outcome reader).2) reader

/-- Whatever the hash function, the source, the calls made before, the body and
the root, an accepted leaf has an audit path to the root. -/
def LeafSound (size index : Nat) : Prop :=
  ∀ (sha256 : List UInt8 → Hash) (σ : Type) (source : TileSource σ) (start : σ)
    (earlier : List LeafCall) (body : List UInt8) (root : Hash),
    ((verifyLeaf sha256 source size index body root).outcome
      (readerAfter sha256 source size earlier (Reader.new start))).1 = .ok () →
    ∃ path, verifyInclusion sha256 index size (leafHash sha256 body) path root = .ok ()

theorem tilesPinned_readerAfter {σ : Type} (source : TileSource σ) (size : Nat)
    (calls : List LeafCall) {reader : Reader σ} (h : TilesPinned sha256 size reader.leafTiles) :
    TilesPinned sha256 size (readerAfter sha256 source size calls reader).leafTiles := by
  induction calls generalizing reader with
  | nil => exact h
  | cons call calls ih =>
    exact ih (keeps_verifyLeaf call.index call.body call.root reader h).1

/-- An accepted leaf is in the tree of the root, whatever the source answers,
exactly where its tile is not full. -/
theorem leafSound_iff_frontier (size index : UInt64) :
    LeafSound size.toNat index.toNat ↔ size.toNat < index.toNat / 256 * 256 + 256 := by
  constructor
  · intro hsound
    by_contra hwhole
    have haccepted := verifyLeaf_forged size.toNat_lt (Nat.not_lt.mp hwhole) []
    obtain ⟨path, hpath⟩ := hsound sealSha256 Bool (forgingSource (index.toNat / 256)) false []
      [] sealedHash haccepted
    exact not_reaches_sealed (leafHash_forged []) path (verifyInclusion_eq_ok_iff.mp hpath).2
  · intro hshort sha256 σ source start earlier body root haccepted
    have hpinned : TilesPinned sha256 size.toNat
        (readerAfter sha256 source size.toNat earlier (Reader.new start)).leafTiles :=
      tilesPinned_readerAfter source size.toNat earlier fun _ hheld => nomatch hheld
    exact (keeps_verifyLeaf index.toNat body root _ hpinned).2 () haccepted hshort

/-- Leaf 0 of a tree of 256 leaves is bound to nothing: any body is accepted under
any root, also where no audit path leads from its leaf hash to the root. -/
theorem forged_leaf_accepted :
    (∀ sha256 body root,
      ((verifyLeaf sha256 (scriptedSource sha256 body root) 256 0 body root).outcome
        (Reader.new 0)).1 = .ok ()) ∧
    ((verifyLeaf sealSha256 (scriptedSource sealSha256 [] sealedHash) 256 0 []
        sealedHash).outcome (Reader.new 0)).1 = .ok () ∧
      ∀ path, verifyInclusion sealSha256 0 256 (leafHash sealSha256 []) path sealedHash ≠
        .ok () := by
  refine ⟨fun sha256 body root => verifyLeaf_scripted, verifyLeaf_scripted, ?_⟩
  intro path hpath
  exact not_reaches_sealed (leafHash_forged []) path (verifyInclusion_eq_ok_iff.mp hpath).2

end Synch.Transparency
