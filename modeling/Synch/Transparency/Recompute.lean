import Synch.Transparency.Nodes

/-!
# Roots recomputed from the tiles of a log

A log that serves its tiles honestly, and may have grown past the size a tree is pinned to, lets a
reader recompute the Merkle tree hash of the leaves it is pinned to, and of every shorter list of
them.
-/

namespace Synch.Transparency

open List Synch.Support

/-! ## Tiles of a list of entries -/

section Tiles

variable (sha256 : List UInt8 → Hash) (entries : List (List UInt8))

/-- The Merkle tree hash of a list of entries, the empty one included. -/
def logHash : Hash :=
  if entries = [] then sha256 [] else merkleTreeHash sha256 entries

/-- The hashes of the complete subtrees of a level. -/
def subtreeAt (level index : Nat) : Hash :=
  treeValue (nodeHash sha256) (leafAt sha256 entries) (index * 2 ^ level) (2 ^ level)

def tileData (tileLevel index width : Nat) : List UInt8 :=
  ((List.range width).map fun i => subtreeAt sha256 entries (8 * tileLevel) (index * 256 + i)).flatMap
    Hash.bytes

/-- A source that serves the tiles of the entries.  A partial tile that was served before the log
grew may still be there. -/
structure Serves {σ : Type} (source : TileSource σ) : Prop where
  tile : ∀ tileLevel index s, widthAt entries.length tileLevel index ≠ 0 →
    ∃ next, source.fetch ⟨.hashes tileLevel, index, widthAt entries.length tileLevel index⟩ s =
      (.ok (some (tileData sha256 entries tileLevel index
        (widthAt entries.length tileLevel index))), next)
  narrower : ∀ tileLevel index width s, width < widthAt entries.length tileLevel index →
    ∃ answer next, source.fetch ⟨.hashes tileLevel, index, width⟩ s = (.ok answer, next) ∧
      ∀ data, answer = some data → data = tileData sha256 entries tileLevel index width
  size : ∀ s, ∃ next, source.checkpointSize s = (.ok (some entries.length), next)

end Tiles

variable {sha256 : List UInt8 → Hash} {entries : List (List UInt8)}

theorem length_flatMap_bytes (hashes : List Hash) :
    (hashes.flatMap Hash.bytes).length = hashes.length * 32 := by
  induction hashes with
  | nil => rfl
  | cons hash hashes ih =>
    rw [flatMap_cons, length_append, ih, hash.length_bytes, length_cons, Nat.succ_mul, Nat.add_comm]

theorem hashAt_flatMap_bytes {hashes : List Hash} {i : Nat} (h : i < hashes.length) :
    hashAt (hashes.flatMap Hash.bytes) i = hashes.get ⟨i, h⟩ := by
  apply Hash.eq_of_bytes
  rw [hashAt_bytes (by rw [length_flatMap_bytes]; exact Nat.mul_le_mul_right 32 h)]
  induction hashes generalizing i with
  | nil => cases h
  | cons hash hashes ih =>
    rw [flatMap_cons]
    cases i with
    | zero =>
      rw [Nat.zero_mul, drop_zero, take_left' hash.length_bytes]
      rfl
    | succ i =>
      have hdrop : (i + 1) * 32 = hash.bytes.length + i * 32 := by
        rw [hash.length_bytes, Nat.succ_mul, Nat.add_comm]
      rw [hdrop, ← drop_drop, drop_left, ih (Nat.lt_of_succ_lt_succ h)]
      rfl

theorem length_tileData (tileLevel index width : Nat) :
    (tileData sha256 entries tileLevel index width).length = width * 32 := by
  rw [tileData, length_flatMap_bytes, length_map, length_range]

theorem hashAt_tileData {tileLevel index width i : Nat} (h : i < width) :
    hashAt (tileData sha256 entries tileLevel index width) i =
      subtreeAt sha256 entries (8 * tileLevel) (index * 256 + i) := by
  rw [tileData, hashAt_flatMap_bytes (by simpa using h)]
  simp

/-- A tile that was served wider starts with the narrower one. -/
theorem take_tileData {tileLevel index width wider : Nat} (h : width ≤ wider) :
    (tileData sha256 entries tileLevel index wider).take (width * 32) =
      tileData sha256 entries tileLevel index width := by
  obtain ⟨more, rfl⟩ := Nat.exists_eq_add_of_le h
  have hlength := @length_tileData sha256 entries tileLevel index width
  rw [tileData, range_add, map_append, flatMap_append]
  exact take_left' hlength

/-! ## Reading a tile -/

theorem widthAt_mono {size size' : Nat} (h : size ≤ size') (tileLevel index : Nat) :
    widthAt size tileLevel index ≤ widthAt size' tileLevel index := by
  have hshift := Nat.div_le_div_right (c := 2 ^ (8 * tileLevel)) h
  unfold widthAt
  omega

theorem widthAt_le (size tileLevel index : Nat) : widthAt size tileLevel index ≤ 256 :=
  Nat.min_le_right _ _

section Reading

variable {σ : Type} {source : TileSource σ} {size : Nat}

theorem returns_checkpointSize {reader : Reader σ} {answer : Option Nat} {next : σ}
    (h : source.checkpointSize reader.source = (.ok answer, next)) :
    Returns (checkpointSize source) reader answer { reader with source := next } := by
  simp only [Returns, Task.outcome, checkpointSize, h]

theorem cut_tileData {tileLevel index width wider : Nat} (h : width ≤ wider) :
    cut ⟨.hashes tileLevel, index, wider⟩ (tileData sha256 entries tileLevel index wider) width =
      .ok (tileData sha256 entries tileLevel index width) := by
  have hlength : ¬(tileData sha256 entries tileLevel index wider).length < width * 32 := by
    rw [length_tileData, Nat.not_lt]
    exact Nat.mul_le_mul_right 32 h
  simp only [cut]
  rw [if_neg hlength, take_tileData h]

/-- The first widening finds the tile: the log says how far it has grown. -/
theorem answers_chaseWidth (hserves : Serves sha256 entries source) {tileLevel index width : Nat}
    (hnarrow : width < widthAt entries.length tileLevel index) (chases : Nat) :
    Support.Answers (chaseWidth source ⟨.hashes tileLevel, index, width⟩ tileLevel (chases + 1) width)
      (tileData sha256 entries tileLevel index width) := by
  intro reader
  obtain ⟨sized, hsized⟩ := hserves.size reader.source
  obtain ⟨next, hnext⟩ := hserves.tile tileLevel index sized (by omega)
  have hpartial : width ≠ 256 := by
    have hle := widthAt_le entries.length tileLevel index
    omega
  have hwide : Returns (fetch source
      ⟨.hashes tileLevel, index, widthAt entries.length tileLevel index⟩)
      { reader with source := sized } _ _ := returns_fetch hnext
  refine ⟨{ reader with source := next }, ?_⟩
  rw [chaseWidth, if_neg hpartial]
  refine (returns_checkpointSize hsized).bind ?_
  simp only [if_neg (Nat.not_le.mpr hnarrow)]
  refine hwide.bind ?_
  simp only [Returns, Task.outcome, Task.ofExcept, cut_tileData hnarrow.le]

theorem answers_hashTile (hserves : Serves sha256 entries source) (hsize : size ≤ entries.length)
    {tileLevel index : Nat} (hwidth : widthAt size tileLevel index ≠ 0) :
    Support.Answers (hashTile source size tileLevel index)
      (tileData sha256 entries tileLevel index (widthAt size tileLevel index)) := by
  have hle := widthAt_mono hsize tileLevel index
  have hbytes : Support.Answers (tileBytes source (.hashes tileLevel) tileLevel index
      (widthAt size tileLevel index))
      (tileData sha256 entries tileLevel index (widthAt size tileLevel index)) := by
    intro reader
    obtain hsame | hnarrow := Nat.eq_or_lt_of_le hle
    · rw [hsame] at hwidth ⊢
      obtain ⟨next, hnext⟩ := hserves.tile tileLevel index reader.source hwidth
      exact ⟨_, (returns_fetch hnext).bind returns_pure⟩
    · obtain ⟨answer, next, hnext, htrue⟩ :=
        hserves.narrower tileLevel index _ reader.source hnarrow
      cases answer with
      | some data =>
        rw [← htrue data rfl]
        exact ⟨_, (returns_fetch hnext).bind returns_pure⟩
      | none =>
        obtain ⟨last, hlast⟩ := answers_chaseWidth hserves hnarrow 3 { reader with source := next }
        exact ⟨last, (returns_fetch hnext).bind hlast⟩
  apply (answers_refuseIf hwidth).bind
  apply hbytes.bind
  apply (answers_refuseIf (not_not.mpr (length_tileData _ _ _))).bind
  exact answers_pure

end Reading

/-! ## The spans of the parts -/

/-- The loop of `maxPow2Le`: a doubling that would leave 64 bits ends it. -/
def doubleUpTo (n k : Nat) : Nat :=
  if 0 < k ∧ k * 2 < 2 ^ 64 ∧ k * 2 ≤ n then doubleUpTo n (k * 2) else k
termination_by n - k
decreasing_by omega

/-- The largest power of two at most `n`. -/
def maxPow2Le (n : Nat) : Nat :=
  doubleUpTo n 1

def alignSpan (position span : Nat) : Nat :=
  if position &&& (span - 1) ≠ 0 then alignSpan position (span / 2) else span
termination_by span
decreasing_by
  rename_i hunaligned
  have hspan : span - 1 ≠ 0 := by
    intro hzero
    rw [hzero, Nat.and_zero] at hunaligned
    exact hunaligned rfl
  omega

theorem doubleUpTo_two_pow {n level : Nat} (hn : n < 2 ^ 64) (hlevel : level ≤ Nat.log2 n)
    (hpos : n ≠ 0) : doubleUpTo n (2 ^ level) = 2 ^ Nat.log2 n := by
  induction hleft : Nat.log2 n - level generalizing level with
  | zero =>
    have hlast : level = Nat.log2 n := by omega
    have hwide : n < 2 ^ (Nat.log2 n + 1) := Nat.lt_log2_self
    rw [Nat.pow_succ, ← hlast] at hwide
    rw [doubleUpTo, if_neg (by omega), hlast]
  | succ left ih =>
    have hspan : 2 ^ (level + 1) ≤ n := by
      have hle : level + 1 ≤ Nat.log2 n := by omega
      exact (Nat.pow_le_pow_right (by decide) hle).trans (Nat.log2_self_le hpos)
    have hstep : 0 < 2 ^ level := Nat.two_pow_pos level
    rw [Nat.pow_succ] at hspan
    rw [doubleUpTo, if_pos (by omega), ← Nat.pow_succ]
    exact ih (by omega) (by omega)

theorem maxPow2Le_eq {n : Nat} (hn : n < 2 ^ 64) (hpos : n ≠ 0) : maxPow2Le n = 2 ^ Nat.log2 n :=
  doubleUpTo_two_pow hn (Nat.zero_le _) hpos

theorem alignSpan_two_pow (position level : Nat) :
    alignSpan position (2 ^ level) = 2 ^ alignedLevel position level := by
  induction level with
  | zero => rw [alignSpan, Nat.pow_zero, Nat.sub_self, Nat.and_zero, if_neg (by simp), alignedLevel,
      Nat.pow_zero]
  | succ level ih =>
    rw [alignSpan, Nat.and_two_pow_sub_one_eq_mod, alignedLevel]
    by_cases haligned : position % 2 ^ (level + 1) = 0
    · rw [if_neg (not_not.mpr haligned), if_pos haligned]
    · rw [if_pos haligned, if_neg haligned, Nat.pow_succ, Nat.mul_div_cancel _ (by decide), ih]

/-- Nothing that is computed for a part of a range leaves 64 bits or its tile: the span the loops
find, the position after it, the shift of its index, and the width of its tile, which holds the
part. -/
structure InBounds (size stop : Nat) (part : Nat × Nat) : Prop where
  level : part.1 < 64
  span : alignSpan part.2 (maxPow2Le (stop - part.2)) = 2 ^ part.1
  stop : part.2 + 2 ^ part.1 ≤ stop
  shift : part.2 / 2 ^ part.1 * 2 ^ (part.1 % 8) < 2 ^ 64
  offset : tileOf part.1 (part.2 / 2 ^ part.1) * 256 / 2 ^ (part.1 % 8) ≤ part.2 / 2 ^ part.1
  width : widthAt size (part.1 / 8) (tileOf part.1 (part.2 / 2 ^ part.1)) ≠ 0
  slice : (offsetIn part.1 (part.2 / 2 ^ part.1) + 1) * 2 ^ (part.1 % 8) ≤
    widthAt size (part.1 / 8) (tileOf part.1 (part.2 / 2 ^ part.1))

theorem inBounds_of_mem {size stop : Nat} (hsize : size < 2 ^ 64) (hstop : stop ≤ size)
    {part : Nat × Nat} (h : part ∈ subtreeParts 0 stop) : InBounds size stop part := by
  obtain ⟨haligned, hend, hwide⟩ := mem_subtreeParts (Nat.zero_mod _) h
  obtain ⟨level, position⟩ := part
  simp only at haligned hend hwide
  have hlog : Nat.log2 (stop - position) = level := by
    rw [Nat.log2_eq_iff (by omega)]
    omega
  have hself := mod_two_pow_of_succ haligned
  have hindex : position / 2 ^ level * 2 ^ level = position := (index_of_mem_subtreeParts h).1
  have hinside : (position / 2 ^ level + 1) * 2 ^ level ≤ size :=
    (index_of_mem_subtreeParts h).2.trans hstop
  have hslice := offsetIn_le_width hinside
  have hshift : position / 2 ^ level * 2 ^ (level % 8) ≤ position / 2 ^ level * 2 ^ level :=
    Nat.mul_le_mul_left _ (Nat.pow_le_pow_right (by decide) (Nat.mod_le level 8))
  exact
    { level := (Nat.pow_lt_pow_iff_right (by decide)).mp (show 2 ^ level < 2 ^ 64 by omega)
      span := by
        simp only
        rw [maxPow2Le_eq (by omega) (by omega), hlog, alignSpan_two_pow, alignedLevel_eq hself]
      stop := hend
      shift := by
        simp only
        omega
      offset := (tileOf_add_offsetIn level _).1
      width := widthAt_tileOf hinside
      slice := hslice }

/-! ## Hashes of subtrees -/

/-- The tree over the hashes of a tile is the tree over the subtrees they stand for. -/
theorem treeValue_tileData {level index width : Nat}
    (hslice : (offsetIn level index + 1) * 2 ^ (level % 8) ≤ width) :
    treeValue (nodeHash sha256)
        (hashAt (tileData sha256 entries (level / 8) (tileOf level index) width))
        (offsetIn level index * 2 ^ (level % 8)) (2 ^ (level % 8)) =
      subtreeAt sha256 entries level index := by
  rw [Nat.succ_mul] at hslice
  have hpos : 0 < 2 ^ (level % 8) := Nat.two_pow_pos _
  have hplace := (tileOf_add_offsetIn level index).2.1
  calc
    treeValue (nodeHash sha256)
          (hashAt (tileData sha256 entries (level / 8) (tileOf level index) width))
          (offsetIn level index * 2 ^ (level % 8)) (2 ^ (level % 8))
        = treeValue (nodeHash sha256)
            (fun i => subtreeAt sha256 entries (8 * (level / 8)) (tileOf level index * 256 + i))
            (offsetIn level index * 2 ^ (level % 8)) (2 ^ (level % 8)) := by
      apply treeValue_leaf_congr _ _ hpos
      intro i _ hi
      exact hashAt_tileData (by omega)
    _ = treeValue (nodeHash sha256) (subtreeAt sha256 entries (8 * (level / 8)))
          (index * 2 ^ (level % 8)) (2 ^ (level % 8)) := by
      rw [← hplace]
      exact (treeValueUpTo_shift (nodeHash sha256) (subtreeAt sha256 entries (8 * (level / 8)))
        (2 ^ (level % 8)) (tileOf level index * 256) _ _).symm
    _ = subtreeAt sha256 entries level index := by
      refine (treeValue_blocks (nodeHash sha256) (leafAt sha256 entries) _ _ _).trans ?_
      rw [Nat.mul_assoc, ← Nat.pow_add, Nat.mod_add_div, subtreeAt]

/-- Folding the parts of a range from the right gives its tree. -/
theorem foldParts_subtreeParts (leaf : Nat → Hash) {position stop : Nat} (hlt : position < stop)
    (haligned : position % 2 ^ Nat.log2 (stop - position) = 0) :
    foldParts sha256 ((subtreeParts position stop).map fun part =>
        treeValue (nodeHash sha256) leaf part.2 (2 ^ part.1)) =
      some (treeValue (nodeHash sha256) leaf position (stop - position)) := by
  induction hleft : stop - position using Nat.strong_induction_on generalizing position with
  | _ n ih =>
    subst hleft
    rw [subtreeParts_cons hlt haligned]
    have hrest := @aligned_rest position stop haligned
    have hspan : 2 ^ Nat.log2 (stop - position) ≤ stop - position := Nat.log2_self_le (by omega)
    have hwide : stop - position < 2 ^ (Nat.log2 (stop - position) + 1) := Nat.lt_log2_self
    generalize Nat.log2 (stop - position) = level at *
    by_cases hwhole : stop - position = 2 ^ level
    · rw [subtreeParts_nil (by omega), hwhole]
      rfl
    · have hmore : position + 2 ^ level < stop := by omega
      have hbelow := ih (stop - (position + 2 ^ level)) (by omega) hmore
        (mod_two_pow_of_succ (hrest hmore)) rfl
      have hne : (subtreeParts (position + 2 ^ level) stop).map (fun part =>
          treeValue (nodeHash sha256) leaf part.2 (2 ^ part.1)) ≠ [] := by
        intro hnil
        rw [hnil] at hbelow
        cases hbelow
      have hsplit := treeValue_split (nodeHash sha256) leaf
        (show 2 ^ level < stop - position by omega) hwide.le position
      rw [map_cons, foldParts_cons hne, hbelow, Option.map_some, hsplit, Nat.sub_add_eq]

section Hashes

variable {σ : Type} {source : TileSource σ} {size : Nat}

/-- The hash that a reader finds for a complete subtree is its Merkle tree hash. -/
theorem answers_storedHash (hserves : Serves sha256 entries source) (hsize : size ≤ entries.length)
    (hword : size < 2 ^ 64) {level index : Nat} (hinside : (index + 1) * 2 ^ level ≤ size) :
    Support.Answers (storedHash sha256 source size level index)
      (subtreeAt sha256 entries level index) := by
  intro reader
  obtain ⟨next, htile⟩ := answers_hashTile hserves hsize (widthAt_tileOf hinside) reader
  have hstored : Returns (storedHash sha256 source size level index) reader _ next :=
    returns_storedHash hword hinside (length_tileData _ _ _) htile
  rw [treeValue_tileData (offsetIn_le_width hinside)] at hstored
  exact ⟨next, hstored⟩

theorem answers_subtreeHash (hserves : Serves sha256 entries source) (hsize : size ≤ entries.length)
    (hword : size < 2 ^ 64) {stop : Nat} (hpos : 0 < stop) (hstop : stop ≤ size) :
    Support.Answers (subtreeHash sha256 source size 0 stop)
      (treeValue (nodeHash sha256) (leafAt sha256 entries) 0 stop) := by
  have hparts : Support.Answers ((subtreeParts 0 stop).mapM fun part =>
      storedHash sha256 source size part.1 (part.2 / 2 ^ part.1))
      ((subtreeParts 0 stop).map fun part =>
        treeValue (nodeHash sha256) (leafAt sha256 entries) part.2 (2 ^ part.1)) := by
    apply answers_mapM
    intro part hpart
    obtain ⟨hindex, hinside⟩ := index_of_mem_subtreeParts hpart
    have hstored := answers_storedHash hserves hsize hword (hinside.trans hstop)
    rw [subtreeAt, hindex] at hstored
    exact hstored
  apply (answers_refuseIf (Nat.not_le.mpr hpos)).bind
  apply hparts.bind
  exact answers_orRefuse (foldParts_subtreeParts _ hpos (Nat.zero_mod _))

end Hashes

theorem logHash_take {stop : Nat} (hpos : 0 < stop) (hstop : stop ≤ entries.length) :
    logHash sha256 (entries.take stop) =
      treeValue (nodeHash sha256) (leafAt sha256 entries) 0 stop := by
  have hlength : (entries.take stop).length = stop := by
    rw [length_take, Nat.min_eq_left hstop]
  have hne : entries.take stop ≠ [] := ne_nil_of_length_pos (by omega)
  rw [logHash, if_neg hne, merkleTreeHash, hlength]
  apply treeValue_leaf_congr _ _ hpos
  intro i _ hi
  rw [leafAt, leafAt, getD_eq_getElem?_getD, getD_eq_getElem?_getD, getElem?_take_of_lt (by omega)]

/-- From the tiles of a log, a reader that is pinned to any size the log has had recomputes the
Merkle tree hash of the leaves it is pinned to and of every non-empty list they start with, with
everything it computes in bounds. -/
theorem tiles_recompute_tree
    (sha256 : List UInt8 → Hash) (entries : List (List UInt8)) {σ : Type} (source : TileSource σ)
    (hserves : Serves sha256 entries source) (size : Nat) (hsize : size ≤ entries.length)
    (hword : size < 2 ^ 64) (reader : Reader σ) :
    (∃ next, Returns (root sha256 source size) reader (logHash sha256 (entries.take size)) next) ∧
      ∀ m, 1 ≤ m → m ≤ size →
        (∃ next, Returns (subtreeHash sha256 source size 0 m) reader
          (logHash sha256 (entries.take m)) next) ∧
        ∀ part ∈ subtreeParts 0 m, InBounds size m part := by
  constructor
  · by_cases hzero : size = 0
    · subst hzero
      exact ⟨reader, returns_pure⟩
    · have hpos := Nat.pos_of_ne_zero hzero
      rw [logHash_take hpos hsize, root, if_neg hzero]
      exact answers_subtreeHash hserves hsize hword hpos le_rfl reader
  · intro m hpos hm
    rw [logHash_take hpos (hm.trans hsize)]
    exact ⟨answers_subtreeHash hserves hsize hword hpos hm reader,
      fun part hpart => inBounds_of_mem hword hm hpart⟩

/-! ## A log in memory -/

/-- A source that holds its entries, and only the tiles of its present size. -/
def memoryLog (sha256 : List UInt8 → Hash) (entries : List (List UInt8)) : TileSource Unit where
  fetch path s :=
    match path.level with
    | .entries => (.ok none, s)
    | .hashes tileLevel =>
      if path.width = widthAt entries.length tileLevel path.index then
        (.ok (some (tileData sha256 entries tileLevel path.index path.width)), s)
      else (.ok none, s)
  checkpointSize s := (.ok (some entries.length), s)

theorem serves_memoryLog (sha256 : List UInt8 → Hash) (entries : List (List UInt8)) :
    Serves sha256 entries (memoryLog sha256 entries) where
  tile tileLevel index s _ := by
    refine ⟨s, ?_⟩
    simp only [memoryLog, if_true]
  narrower tileLevel index width s hnarrow := by
    refine ⟨none, s, ?_, nofun⟩
    simp only [memoryLog, if_neg hnarrow.ne]
  size s := ⟨s, rfl⟩

/-- A reader that is still pinned to the first two of three leaves. -/
theorem two_of_three_leaves_recomputed :
    let source := memoryLog abcSha256 abcEntries
    (∃ next, Returns (root abcSha256 source 2) (Reader.new ()) abHash next) ∧
      ∀ part ∈ subtreeParts 0 2, InBounds 2 2 part := by
  intro source
  obtain ⟨hroot, hparts⟩ := tiles_recompute_tree abcSha256 abcEntries source
    (serves_memoryLog _ _) 2 (by decide) (by decide) (Reader.new ())
  exact ⟨hroot, (hparts 2 (by decide) le_rfl).2⟩

/-- The hash over no leaves is not one that a reader computes from tiles. -/
theorem empty_range_refused :
    let source := memoryLog abcSha256 abcEntries
    ¬∃ next, Returns (subtreeHash abcSha256 source 3 0 0) (Reader.new ())
      (logHash abcSha256 (abcEntries.take 0)) next := by
  rintro source ⟨next, h⟩
  cases h

end Synch.Transparency
