import Synch.Transparency.Tiles

/-!
# The frontier tile is pinned to the root

The last level-0 tile of a tree is not full.  It is checked by recomputing the
root over the bytes of the tile, so every hash in bytes that pass has an audit
path to the root, whatever the source answered for the rest of the tree.
-/

namespace Synch.Transparency

open List Synch.Support

variable {sha256 : List UInt8 → Hash}

variable {m level n i start position stop : Nat} {hash : Hash} {path : List Hash}
  {data : List UInt8}

/-- One step up at the same side in two trees, where the paths above go on alike. -/
theorem reaches_cons_append {last m' last' : Nat} {sibling top root root' : Hash}
    (hside : m' % 2 = m % 2) (hlast : last' ≠ 0) (hinside : m % 2 = 0 → m < last ∧ m' < last')
    (habove : ∀ {hash}, Reaches sha256 ⟨m / 2, last / 2, hash⟩ path root →
      Reaches sha256 ⟨m' / 2, last' / 2, hash⟩ (path ++ [top]) root')
    (h : Reaches sha256 ⟨m, last, hash⟩ (sibling :: path) root) :
    Reaches sha256 ⟨m', last', hash⟩ (sibling :: path ++ [top]) root' := by
  rw [cons_append, reaches_cons]
  refine ⟨hlast, ?_⟩
  have hnext := (reaches_cons.mp h).2
  by_cases heven : m % 2 = 0
  · rw [next_of_even heven (hinside heven).1] at hnext
    rw [next_of_even (hside.trans heven) (hinside heven).2]
    exact habove hnext
  · have hodd : m % 2 = 1 := by omega
    rw [next_of_odd hodd] at hnext
    rw [next_of_odd (hside.trans hodd)]
    exact habove hnext

/-- A path through a full left half goes on with the value of the right half. -/
theorem Reaches.left (hm : m < 2 ^ level) (hmore : 2 ^ level < n) (hn : n ≤ 2 ^ (level + 1))
    {half : Hash} (h : Reaches sha256 ⟨m, 2 ^ level - 1, hash⟩ path half) (right : Hash) :
    Reaches sha256 ⟨m, n - 1, hash⟩ (path ++ [right]) (nodeHash sha256 half right) := by
  induction level generalizing m n hash path with
  | zero =>
    obtain rfl : m = 0 := by omega
    obtain rfl : n = 2 := by omega
    obtain _ | ⟨sibling, path⟩ := path
    · obtain ⟨-, rfl⟩ := reaches_nil.mp h
      rw [nil_append, reaches_cons, next_of_even rfl (by decide)]
      exact ⟨Nat.one_ne_zero, reaches_nil.mpr ⟨rfl, rfl⟩⟩
    · exact absurd rfl (reaches_cons.mp h).1
  | succ level ih =>
    have hlast : (2 ^ (level + 1) - 1) / 2 = 2 ^ level - 1 := by omega
    have hrow : (n - 1) / 2 = (n + 1) / 2 - 1 := by omega
    rw [Nat.pow_succ 2 (level + 1)] at hn
    obtain _ | ⟨sibling, path⟩ := path
    · exact absurd (reaches_nil.mp h).1 (by simp only; omega)
    refine reaches_cons_append rfl (by omega) (by omega) (fun habove => ?_) h
    rw [hlast] at habove
    rw [hrow]
    exact ih (by omega) (by omega) (by omega) habove

/-- A path through the right part goes on with the value of the full left half. -/
theorem Reaches.right (hm : m < n) (hn : n ≤ 2 ^ level) {part : Hash}
    (h : Reaches sha256 ⟨m, n - 1, hash⟩ path part) (left : Hash) :
    Reaches sha256 ⟨2 ^ level + m, 2 ^ level + n - 1, hash⟩ (path ++ [left])
      (nodeHash sha256 left part) := by
  induction level generalizing m n hash path with
  | zero =>
    obtain rfl : m = 0 := by omega
    obtain rfl : n = 1 := by omega
    obtain _ | ⟨sibling, path⟩ := path
    · obtain ⟨-, rfl⟩ := reaches_nil.mp h
      rw [nil_append, reaches_cons, next_of_odd rfl]
      exact ⟨Nat.one_ne_zero, reaches_nil.mpr ⟨rfl, rfl⟩⟩
    · exact absurd rfl (reaches_cons.mp h).1
  | succ level ih =>
    have hnode : (2 ^ (level + 1) + m) / 2 = 2 ^ level + m / 2 := by omega
    have hrow : (2 ^ (level + 1) + n - 1) / 2 = 2 ^ level + (n + 1) / 2 - 1 := by omega
    have hhalf : (n - 1) / 2 = (n + 1) / 2 - 1 := by omega
    by_cases halone : m % 2 = 0 ∧ m + 1 = n
    · obtain ⟨heven, hlast⟩ := halone
      have hcarried : Climb.Alone ⟨2 ^ (level + 1) + m, 2 ^ (level + 1) + n - 1, hash⟩ :=
        ⟨by simp only; omega, by simp only; omega, by simp only; omega⟩
      rw [← hcarried.reaches_carried, Climb.carried]
      simp only [hnode, hrow]
      apply ih (by omega) (by omega)
      by_cases hone : n = 1
      · obtain rfl : m = 0 := by omega
        subst hone
        exact h
      · have hbelow : Climb.Alone ⟨m, n - 1, hash⟩ :=
          ⟨by simp only; omega, heven, by simp only; omega⟩
        rw [← hbelow.reaches_carried, Climb.carried] at h
        simp only [hhalf] at h
        exact h
    obtain _ | ⟨sibling, path⟩ := path
    · exact absurd (reaches_nil.mp h).1 (by simp only; omega)
    refine reaches_cons_append (by omega) (by omega) (by omega) (fun habove => ?_) h
    rw [hhalf] at habove
    rw [hnode, hrow]
    exact ih (by omega) (by omega) habove

/-! ## Runs of hashes -/

/-- The hash at a position of a tile. -/
def hashAt (data : List UInt8) (i : Nat) : Hash :=
  if h : ((data.drop (i * 32)).take 32).length = 32 then ⟨_, h⟩ else .ofNat 0

theorem hashAt_bytes (h : (i + 1) * 32 ≤ data.length) :
    (hashAt data i).bytes = (data.drop (i * 32)).take 32 := by
  have hlength : ((data.drop (i * 32)).take 32).length = 32 := by
    rw [length_take, length_drop]
    omega
  rw [hashAt, dif_pos hlength]

theorem length_run (h : (start + n) * 32 ≤ data.length) :
    ((data.drop (start * 32)).take (n * 32)).length = n * 32 := by
  rw [length_take, length_drop]
  omega

theorem fold_run (h : (start + 2 ^ level) * 32 ≤ data.length) :
    fold sha256 ((data.drop (start * 32)).take (2 ^ level * 32)) =
      some (treeValue (nodeHash sha256) (hashAt data) start (2 ^ level)) := by
  induction level generalizing start with
  | zero =>
    have hlength := length_run h
    rw [Nat.pow_zero, Nat.one_mul] at hlength ⊢
    rw [fold, dif_pos hlength, treeValue_one]
    congr 1
    apply Hash.eq_of_bytes
    rw [hashAt_bytes (by omega)]
  | succ level ih =>
    have hpos : 0 < 2 ^ level := Nat.two_pow_pos level
    have hlength := length_run h
    have hcount : 2 ^ (level + 1) * 32 / 32 = 2 ^ (level + 1) := by omega
    have hhalf : 2 ^ (level + 1) * 32 / 2 = 2 ^ level * 32 := by omega
    have hrun : ¬(2 ^ (level + 1) * 32 % 32 ≠ 0 ∨ 2 ^ (level + 1) = 0 ∨
        2 ^ Nat.log2 (2 ^ (level + 1)) ≠ 2 ^ (level + 1)) := by
      rw [Nat.log2_two_pow]
      omega
    have hleft : ((data.drop (start * 32)).take (2 ^ (level + 1) * 32)).take (2 ^ level * 32) =
        (data.drop (start * 32)).take (2 ^ level * 32) := by
      rw [take_take, Nat.min_eq_left (by omega)]
    have hright : ((data.drop (start * 32)).take (2 ^ (level + 1) * 32)).drop (2 ^ level * 32) =
        (data.drop ((start + 2 ^ level) * 32)).take (2 ^ level * 32) := by
      rw [drop_take, drop_drop]
      congr 2 <;> omega
    have hsplit := treeValue_split (nodeHash sha256) (hashAt data)
      (show 2 ^ level < 2 ^ (level + 1) by omega) le_rfl start
    have hrest : 2 ^ (level + 1) - 2 ^ level = 2 ^ level := by omega
    rw [fold, dif_neg (by omega)]
    simp only [hlength, hcount, hhalf]
    rw [dif_neg hrun, hleft, hright, ih (by omega), ih (by omega), hsplit, hrest]
    rfl

theorem slice_eq_some {run : List UInt8} (h : slice data start stop = some run) :
    (start ≤ stop ∧ stop ≤ data.length) ∧ run = (data.drop start).take (stop - start) := by
  unfold slice at h
  split at h
  · rename_i hinside
    cases h
    exact ⟨hinside, rfl⟩
  · cases h

theorem slice_eq (hstart : start ≤ stop) (hstop : stop ≤ data.length) :
    slice data start stop = some ((data.drop start).take (stop - start)) :=
  if_pos ⟨hstart, hstop⟩

/-! ## The parts of a tree -/

theorem alignedLevel_eq {top : Nat} (h : position % 2 ^ top = 0) :
    alignedLevel position top = top := by
  cases top with
  | zero => rfl
  | succ top => rw [alignedLevel, if_pos h]

/-- The largest subtree a range of the tree starts with. -/
theorem subtreeParts_cons (hlt : position < stop)
    (haligned : position % 2 ^ Nat.log2 (stop - position) = 0) :
    subtreeParts position stop =
      (Nat.log2 (stop - position), position) ::
        subtreeParts (position + 2 ^ Nat.log2 (stop - position)) stop := by
  rw [subtreeParts, if_pos hlt, alignedLevel_eq haligned]

theorem subtreeParts_nil (h : stop ≤ position) : subtreeParts position stop = [] := by
  rw [subtreeParts, if_neg (Nat.not_lt.mpr h)]

theorem mod_two_pow_of_succ (h : n % 2 ^ (level + 1) = 0) : n % 2 ^ level = 0 :=
  Nat.mod_eq_zero_of_dvd
    (Nat.dvd_trans (Nat.pow_dvd_pow 2 (Nat.le_succ level)) (Nat.dvd_of_mod_eq_zero h))

/-- The rest of the range is aligned to smaller subtrees, and to their parents. -/
theorem aligned_rest (haligned : position % 2 ^ Nat.log2 (stop - position) = 0)
    (hmore : position + 2 ^ Nat.log2 (stop - position) < stop) :
    (position + 2 ^ Nat.log2 (stop - position)) %
      2 ^ (Nat.log2 (stop - (position + 2 ^ Nat.log2 (stop - position))) + 1) = 0 := by
  have hlt : stop - position < 2 ^ (Nat.log2 (stop - position) + 1) := Nat.lt_log2_self
  generalize Nat.log2 (stop - position) = level at *
  rw [Nat.pow_succ] at hlt
  have hle : Nat.log2 (stop - (position + 2 ^ level)) + 1 ≤ level := by
    have hsmall : stop - (position + 2 ^ level) < 2 ^ level := by omega
    exact (Nat.log2_lt (by omega)).mpr hsmall
  have hwhole : 2 ^ level ∣ position + 2 ^ level :=
    Nat.dvd_add (Nat.dvd_of_mod_eq_zero haligned) (Nat.dvd_refl _)
  exact Nat.mod_eq_zero_of_dvd (Nat.dvd_trans (Nat.pow_dvd_pow 2 hle) hwhole)

theorem mem_subtreeParts (haligned : position % 2 ^ (Nat.log2 (stop - position) + 1) = 0)
    {part : Nat × Nat} (h : part ∈ subtreeParts position stop) :
    part.2 % 2 ^ (part.1 + 1) = 0 ∧ part.2 + 2 ^ part.1 ≤ stop ∧
      stop < part.2 + 2 ^ (part.1 + 1) := by
  induction hleft : stop - position using Nat.strong_induction_on generalizing position with
  | _ n ih =>
    subst hleft
    by_cases hlt : position < stop
    · have hself := mod_two_pow_of_succ haligned
      have hspan : 2 ^ Nat.log2 (stop - position) ≤ stop - position :=
        Nat.log2_self_le (by omega)
      have hwide : stop - position < 2 ^ (Nat.log2 (stop - position) + 1) := Nat.lt_log2_self
      rw [subtreeParts_cons hlt hself, mem_cons] at h
      rcases h with rfl | hrest
      · exact ⟨haligned, by simp only; omega, by simp only; omega⟩
      · by_cases hmore : position + 2 ^ Nat.log2 (stop - position) < stop
        · exact ih _ (by omega) (aligned_rest hself hmore) hrest rfl
        · rw [subtreeParts_nil (by omega)] at hrest
          cases hrest
    · rw [subtreeParts_nil (by omega)] at h
      cases h

theorem foldParts_cons {part : Hash} {rest : List Hash} (hne : rest ≠ []) :
    foldParts sha256 (part :: rest) = (foldParts sha256 rest).map (nodeHash sha256 part) := by
  cases rest with
  | nil => exact absurd rfl hne
  | cons next rest => rfl

variable (sha256) in
/-- A part that lies in a level-0 tile has the value of its hashes in the data. -/
def PartIn (tile : Nat) (data : List UInt8) (part : Nat × Nat) (hash : Hash) : Prop :=
  part.1 < 8 ∧ tile * 256 ≤ part.2 ∧ part.2 - tile * 256 < 256 →
    hash = treeValue (nodeHash sha256) (hashAt data) (part.2 - tile * 256) (2 ^ part.1) ∧
      (part.2 - tile * 256 + 2 ^ part.1) * 32 ≤ data.length

theorem reaches_in_part (hstart : start ≤ i) (hi : i < start + 2 ^ level) :
    ∃ path, Reaches sha256 ⟨i - start, 2 ^ level - 1, hashAt data i⟩ path
      (treeValue (nodeHash sha256) (hashAt data) start (2 ^ level)) := by
  have hpath : Reaches sha256 ⟨i - start, 2 ^ level - 1, hashAt data (start + (i - start))⟩ _ _ :=
    reaches_auditPath (show i - start < 2 ^ level by omega) fun j => hashAt data (start + j)
  rw [← treeValue_shift, Nat.add_sub_cancel' hstart] at hpath
  exact ⟨_, hpath⟩

/-- A part that holds a leaf of the frontier tile lies in the tile. -/
theorem part_in_tile {size tile : Nat} (hshort : size < tile * 256 + 256)
    (haligned : position % 2 ^ level = 0) (hspan : position + 2 ^ level ≤ size)
    (htile : tile * 256 ≤ i) (hi : i < position + 2 ^ level) :
    level < 8 ∧ tile * 256 ≤ position ∧ position - tile * 256 < 256 := by
  by_cases hlevel : level < 8
  · refine ⟨hlevel, ?_, by omega⟩
    by_contra hbefore
    -- both ends of the part are aligned to it, and so is the tile
    have hwhole : 2 ^ level ∣ tile * 256 :=
      Nat.dvd_trans (Nat.pow_dvd_pow 2 hlevel.le) (Nat.dvd_mul_left (2 ^ 8) tile)
    obtain ⟨a, ha⟩ := Nat.dvd_of_mod_eq_zero haligned
    obtain ⟨b, hb⟩ := hwhole
    have hab : a < b := by
      apply Nat.lt_of_mul_lt_mul_left (a := 2 ^ level)
      omega
    have hle : 2 ^ level * (a + 1) ≤ 2 ^ level * b := Nat.mul_le_mul_left _ hab
    rw [Nat.mul_succ] at hle
    omega
  · -- a larger part ends before the tile
    exfalso
    have hwhole : 2 ^ 8 ∣ position + 2 ^ level := by
      have hspans : 2 ^ 8 ∣ 2 ^ level := Nat.pow_dvd_pow 2 (by omega)
      exact Nat.dvd_add (Nat.dvd_trans hspans (Nat.dvd_of_mod_eq_zero haligned)) hspans
    obtain ⟨q, hq⟩ := hwhole
    omega

/-- The leaves of the frontier tile have audit paths to the value folded from the
parts of the tree. -/
theorem reaches_of_parts {size tile : Nat} (hshort : size < tile * 256 + 256) {hashes : List Hash}
    {top : Hash} (haligned : position % 2 ^ Nat.log2 (size - position) = 0)
    (hparts : List.Forall₂ (PartIn sha256 tile data) (subtreeParts position size) hashes)
    (hfold : foldParts sha256 hashes = some top) (htile : tile * 256 ≤ i)
    (hposition : position ≤ i) (hi : i < size) :
    ∃ path, Reaches sha256 ⟨i - position, size - position - 1, hashAt data (i - tile * 256)⟩
      path top := by
  induction hleft : size - position using Nat.strong_induction_on
    generalizing position hashes top with
  | _ n ih =>
    subst hleft
    have hlt : position < size := by omega
    rw [subtreeParts_cons hlt haligned] at hparts
    have hrest := @aligned_rest position size haligned
    have hspan : 2 ^ Nat.log2 (size - position) ≤ size - position :=
      Nat.log2_self_le (by omega)
    have hwide : size - position < 2 ^ (Nat.log2 (size - position) + 1) := Nat.lt_log2_self
    generalize Nat.log2 (size - position) = level at *
    obtain ⟨hash, hashes, hpart, hparts', rfl⟩ := forall₂_cons_left_iff.mp hparts
    -- the part of the leaf, if it is this one
    have hinside : i < position + 2 ^ level →
        ∃ path, Reaches sha256
          ⟨i - position, 2 ^ level - 1, hashAt data (i - tile * 256)⟩ path hash := by
      intro hlast
      have hin := part_in_tile hshort haligned (by omega) htile hlast
      obtain ⟨rfl, -⟩ := hpart hin
      have hshift : i - position = i - tile * 256 - (position - tile * 256) := by omega
      rw [hshift]
      exact reaches_in_part (by omega) (by omega)
    by_cases hwhole : size - position = 2 ^ level
    · -- this part is the last
      rw [subtreeParts_nil (by omega)] at hparts'
      cases hparts'
      cases hfold
      rw [hwhole]
      exact hinside (by omega)
    have hmore : 2 ^ level < size - position := by omega
    have hne : hashes ≠ [] := by
      rintro rfl
      rw [subtreeParts_cons (by omega) (mod_two_pow_of_succ (hrest (by omega)))] at hparts'
      cases hparts'
    rw [foldParts_cons hne] at hfold
    obtain ⟨below, hbelow, rfl⟩ := Option.map_eq_some_iff.mp hfold
    by_cases hlast : i < position + 2 ^ level
    · obtain ⟨path, hpath⟩ := hinside hlast
      exact ⟨_, hpath.left (by omega) hmore (by omega) below⟩
    · obtain ⟨path, hpath⟩ := ih (size - (position + 2 ^ level)) (by omega)
        (mod_two_pow_of_succ (hrest (by omega))) hparts' hbelow (by omega) rfl
      have hrest' : size - (position + 2 ^ level) ≤ 2 ^ level := by omega
      have hright := hpath.right (by omega) hrest' hash
      have hnode : 2 ^ level + (i - (position + 2 ^ level)) = i - position := by omega
      have hrow : 2 ^ level + (size - (position + 2 ^ level)) - 1 = size - position - 1 := by
        omega
      rw [hnode, hrow] at hright
      exact ⟨_, hright⟩

/-! ## What reading keeps -/

variable {σ : Type} {source : TileSource σ} {size : Nat}

/-- A condition on the bytes a reader remembers. -/
def OnTiles (inv : List AuthenticatedTile → Prop) (reader : Reader σ) : Prop :=
  inv reader.leafTiles

section Unchanged

-- requests change nothing that the reader remembers
variable {inv : List AuthenticatedTile → Prop}

theorem keeps_fetch (path : TilePath) : Keeps (OnTiles inv) (fetch source path) fun _ => True :=
  fun _ hreader => ⟨hreader, fun _ _ => trivial⟩

theorem keeps_checkpointSize : Keeps (OnTiles inv) (checkpointSize source) fun _ => True :=
  fun _ hreader => ⟨hreader, fun _ _ => trivial⟩

theorem keeps_chaseWidth (path : TilePath) (tileLevel chases widthNow : Nat) :
    Keeps (OnTiles inv) (chaseWidth source path tileLevel chases widthNow) fun _ => True := by
  induction chases generalizing widthNow with
  | zero => exact keeps_throw
  | succ chases ih =>
    rw [chaseWidth]
    split
    · exact keeps_throw
    apply keeps_checkpointSize.bind
    rintro (_ | now) _
    · exact keeps_throw
    dsimp only
    split
    · exact keeps_throw
    apply (keeps_fetch _).bind
    rintro (_ | data) _
    · exact ih _
    · exact fun _ hs => ⟨hs, fun _ _ => trivial⟩

theorem keeps_tileBytes (level : TileLevel) (tileLevel index width : Nat) :
    Keeps (OnTiles inv) (tileBytes source level tileLevel index width) fun _ => True := by
  apply (keeps_fetch _).bind
  rintro (_ | data) _
  · exact keeps_chaseWidth _ _ _ _
  · exact keeps_pure trivial

theorem keeps_hashTile (tileLevel index : Nat) :
    Keeps (OnTiles inv) (hashTile source size tileLevel index) fun data =>
      data.length = widthAt size tileLevel index * 32 := by
  apply keeps_refuseIf.bind
  intro _ _
  apply (keeps_tileBytes _ _ _ _).bind
  intro data _
  apply keeps_refuseIf.bind
  intro _ hlength
  exact keeps_pure (not_not.mp hlength)

theorem keeps_storedHash (level index : Nat) :
    Keeps (OnTiles inv) (storedHash sha256 source size level index) fun _ => True := by
  apply keeps_refuseIf.bind
  intro _ _
  apply (keeps_hashTile _ _).bind
  intro data _
  apply keeps_orRefuse.bind
  intro run _
  exact keeps_orRefuse.mono fun _ _ => trivial

theorem keeps_root : Keeps (OnTiles inv) (root sha256 source size) fun _ => True := by
  unfold root
  split
  · exact keeps_pure trivial
  apply keeps_refuseIf.bind
  intro _ _
  apply (keeps_mapM fun part _ => keeps_storedHash _ _).bind
  intro hashes _
  exact keeps_orRefuse.mono fun _ _ => trivial

theorem keeps_partHash (tile : Nat) (data : List UInt8) (part : Nat × Nat) :
    Keeps (OnTiles inv) (partHash sha256 source size tile data part)
      (PartIn sha256 tile data part) := by
  obtain ⟨level, position⟩ := part
  unfold partHash
  dsimp only
  split
  · apply keeps_orRefuse.bind
    intro run hrun
    apply keeps_orRefuse.mono
    intro hash hhash _
    obtain ⟨hinside, rfl⟩ := slice_eq_some hrun
    have hlength : (position - tile * 256 + 2 ^ level) * 32 ≤ data.length := by
      rw [Nat.add_mul]
      exact hinside.2
    rw [Nat.add_sub_cancel_left, fold_run hlength] at hhash
    cases hhash
    exact ⟨rfl, hlength⟩
  · rename_i hout
    exact (keeps_storedHash _ _).mono fun _ _ hin => absurd hin hout

variable (sha256) in
/-- Every hash of a level-0 tile has an audit path to a root. -/
structure Pinned (size : Nat) (root : Hash) (tile : Nat) (data : List UInt8) : Prop where
  reaches : ∀ i, tile * 256 ≤ i → i < size →
    ∃ path, Reaches sha256 ⟨i, size - 1, hashAt data (i - tile * 256)⟩ path root
  length : (size - tile * 256) * 32 ≤ data.length

theorem widthAt_zero (size tile : Nat) : widthAt size 0 tile = min (size - tile * 256) 256 := by
  simp [widthAt]

/-- Recomputing the root over the bytes of the frontier tile pins them. -/
theorem keeps_rootOver
    {tile : Nat} {data : List UInt8} (hlength : data.length = widthAt size 0 tile * 32) :
    Keeps (OnTiles inv) (rootOver sha256 source size tile data) fun computed =>
      size < tile * 256 + 256 → Pinned sha256 size computed tile data := by
  apply (keeps_mapM fun part _ => keeps_partHash tile data part).bind
  intro hashes hparts
  apply keeps_orRefuse.mono
  intro computed hfold hshort
  constructor
  · intro i htile hi
    exact reaches_of_parts hshort (Nat.zero_mod _) hparts hfold htile (Nat.zero_le i) hi
  · rw [hlength, widthAt_zero, Nat.min_eq_left (by omega)]

end Unchanged

/-! ## Authentication -/

variable (sha256 size) in
/-- The remembered bytes of a frontier tile are pinned to their root. -/
def TilesPinned (tiles : List AuthenticatedTile) : Prop :=
  ∀ held ∈ tiles, size < held.index * 256 + 256 → Pinned sha256 size held.root held.index held.data

theorem tilesPinned_rememberIn {tiles : List AuthenticatedTile} {tile : AuthenticatedTile}
    (h : TilesPinned sha256 size tiles) (htile : size < tile.index * 256 + 256 →
      Pinned sha256 size tile.root tile.index tile.data) :
    TilesPinned sha256 size (rememberIn tile tiles) := by
  unfold rememberIn
  split
  · exact h
  · intro held hheld
    have hkept := mem_of_mem_drop hheld
    rw [mem_append, mem_singleton] at hkept
    rcases hkept with hold | rfl
    · exact h held hold
    · exact htile

theorem keeps_rememberLeafTile {root : Hash} {index : Nat}
    (h : size < index * 256 + 256 → Pinned sha256 size root index data) :
    Keeps (OnTiles (TilesPinned sha256 size))
      (rememberLeafTile root index data : Reading σ Unit) fun _ => True :=
  keeps_change fun _ hreader => tilesPinned_rememberIn hreader h

theorem keeps_checkFullTile (root : Hash) (hfull : widthAt size level position = 256) :
    Keeps (OnTiles (TilesPinned sha256 size))
      (checkFullTile sha256 source size root level position) fun _ => True := by
  apply (keeps_hashTile _ _).bind
  intro data _
  apply (keeps_storedHash _ _).bind
  intro parent _
  apply keeps_orRefuse.bind
  intro folded _
  apply keeps_refuseIf.bind
  intro _ _
  split
  · -- a full tile of level 0 is not the frontier's
    rename_i hlevel
    apply keeps_rememberLeafTile
    intro hshort
    rw [hlevel, widthAt_zero] at hfull
    omega
  · exact keeps_pure trivial

theorem keeps_checkFrontierLeaves (root : Hash) (position : Nat) :
    Keeps (OnTiles (TilesPinned sha256 size))
      (checkFrontierLeaves sha256 source size root position) fun _ => True := by
  apply (keeps_hashTile _ _).bind
  intro data hlength
  apply (keeps_rootOver hlength).bind
  intro computed hpinned
  apply keeps_refuseIf.bind
  intro _ hsame
  rw [not_not.mp hsame] at hpinned
  exact keeps_rememberLeafTile hpinned

theorem keeps_checkFrontierTile (root : Hash) (level position : Nat) :
    Keeps (OnTiles (TilesPinned sha256 size))
      (checkFrontierTile sha256 source size root level position) fun _ => True := by
  apply keeps_root.bind
  intro computed _
  exact keeps_refuseIf.mono fun _ _ => trivial

theorem keeps_checkTile (root : Hash) (place : Nat × Nat) :
    Keeps (OnTiles (TilesPinned sha256 size)) (checkTile sha256 source size root place)
      fun _ => True := by
  have hmark : Keeps (OnTiles (TilesPinned sha256 size))
      (markAuthenticated root place.1 place.2 : Reading σ Unit) fun _ => True :=
    keeps_change fun _ hreader => hreader
  unfold checkTile
  split
  · rename_i hfull
    exact (keeps_checkFullTile root hfull).bind fun _ _ => hmark
  split
  · exact (keeps_checkFrontierLeaves root place.2).bind fun _ _ => hmark
  · exact (keeps_checkFrontierTile root place.1 place.2).bind fun _ _ => hmark

theorem keeps_authenticateTile (tileLevel index : Nat) (root : Hash) :
    Keeps (OnTiles (TilesPinned sha256 size))
      (authenticateTile sha256 source size tileLevel index root) fun _ => True := by
  have hread : Keeps (OnTiles (TilesPinned sha256 size))
      (Task.read fun reader => chainUp size reader.authenticated root tileLevel index :
        Reading σ _) fun _ => True :=
    keeps_read fun _ _ => trivial
  apply hread.bind
  intro chain _
  exact keeps_forM fun place _ => keeps_checkTile root place

/-- The bytes a leaf is compared with are pinned, in the frontier tile. -/
theorem keeps_leafTile (tile : Nat) (root : Hash) :
    Keeps (OnTiles (TilesPinned sha256 size)) (leafTile sha256 source size tile root)
      fun data => size < tile * 256 + 256 → Pinned sha256 size root tile data := by
  have hremembered : Keeps (OnTiles (TilesPinned sha256 size))
      (rememberedLeafTile root tile : Reading σ _) fun found =>
        ∀ data, found = some data → size < tile * 256 + 256 →
          Pinned sha256 size root tile data := by
    apply keeps_read
    intro reader hreader data hdata hshort
    obtain ⟨held, hfind, rfl⟩ := Option.map_eq_some_iff.mp hdata
    obtain ⟨rfl, rfl⟩ : held.root = root ∧ held.index = tile := by
      simpa using find?_some hfind
    exact hreader held (mem_of_find?_eq_some hfind) hshort
  apply hremembered.bind
  rintro (_ | data) hfound
  · apply (keeps_hashTile _ _).bind
    intro data hlength
    have hbind : Keeps (OnTiles (TilesPinned sha256 size))
        (bindLeafTile sha256 source size tile data root) fun _ =>
          size < tile * 256 + 256 → Pinned sha256 size root tile data := by
      unfold bindLeafTile
      split
      · rename_i hfull
        apply keeps_orRefuse.bind
        intro folded _
        apply (keeps_storedHash _ _).bind
        intro parent _
        apply keeps_refuseIf.mono
        intro _ _ hshort
        rw [widthAt_zero] at hfull
        omega
      · apply (keeps_rootOver hlength).bind
        intro computed hpinned
        apply keeps_refuseIf.mono
        intro _ hsame
        rw [not_not.mp hsame] at hpinned
        exact hpinned
    apply hbind.bind
    intro _ hpinned
    apply (keeps_rememberLeafTile hpinned).bind
    intro _ _
    exact keeps_pure hpinned
  · exact keeps_pure (hfound data rfl)

/-- A leaf of the frontier tile that is accepted has an audit path to the root. -/
theorem keeps_verifyLeaf (index : Nat) (body : List UInt8) (root : Hash) :
    Keeps (OnTiles (TilesPinned sha256 size)) (verifyLeaf sha256 source size index body root)
      fun _ => size < index / 256 * 256 + 256 →
        ∃ path, verifyInclusion sha256 index size (leafHash sha256 body) path root = .ok () := by
  apply keeps_refuseIf.bind
  intro _ hinside
  apply (keeps_authenticateTile _ _ _).bind
  intro _ _
  apply (keeps_leafTile _ _).bind
  intro data hpinned
  apply keeps_orRefuse.bind
  intro stored hstored
  apply keeps_refuseIf.mono
  intro _ hsame hshort
  have hindex : index < size := Nat.not_le.mp hinside
  obtain ⟨path, hpath⟩ := (hpinned hshort).reaches index (by omega) hindex
  obtain ⟨hslice, rfl⟩ := slice_eq_some hstored
  have hleaf : hashAt data (index - index / 256 * 256) = leafHash sha256 body := by
    apply Hash.eq_of_bytes
    rw [hashAt_bytes (by omega), ← not_not.mp hsame, Nat.add_sub_cancel_left]
  rw [hleaf] at hpath
  exact ⟨path, verifyInclusion_eq_ok_iff.mpr ⟨hindex, hpath⟩⟩

end Synch.Transparency
