import Synch.Transparency.Inclusion
import Synch.Support.Stateful

/-!
# Reading a log's tiles

The log is published as tiles of 256 hashes.  A monitor recomputes the root of
a checkpoint from them and binds the body of an entry to it.  The source of the
tiles is a parameter and answers each request as it likes.
-/

namespace Synch.Transparency

open Synch.Support

/-- Why a monitor run could not finish. -/
inductive MonitorError where
  | transport (why : String)
  | tile (why : String)
  | checkpoint (why : String)
  | state (why : String)
deriving DecidableEq, Repr

/-! ## Paths -/

/-- The resources of a log that are published in tiles. -/
inductive TileLevel where
  | entries
  | hashes (level : Nat)
deriving DecidableEq, Repr

def TileLevel.text : TileLevel → String
  | .entries => "entries"
  | .hashes level => toString level

structure TilePath where
  level : TileLevel
  index : Nat
  width : Nat
deriving DecidableEq, Repr

def threeDigits (n : Nat) : String :=
  String.ofList (List.leftpad 3 '0' (toString n).toList)

/-- The groups of digits before the last, each marked with an `x`. -/
def leadingGroups (rest : Nat) (groups : List String) : List String :=
  if rest = 0 then groups
  else leadingGroups (rest / 1000) (("x" ++ threeDigits (rest % 1000)) :: groups)

def TilePath.text (path : TilePath) : String :=
  let groups := leadingGroups (path.index / 1000) [threeDigits (path.index % 1000)]
  let width := path.width
  let suffix := if width = 256 then "" else s!".p/{width}"
  "api/v2/tile/" ++ path.level.text ++ "/" ++ "/".intercalate groups ++ suffix

/-! ## The source and the reader's memory -/

/-- Where tiles come from.  An answer may depend on everything asked before. -/
structure TileSource (σ : Type) where
  fetch : TilePath → σ → Except MonitorError (Option (List UInt8)) × σ
  checkpointSize : σ → Except MonitorError (Option Nat) × σ

/-- The bytes of a level-0 tile, with the root they were checked against. -/
structure AuthenticatedTile where
  root : Hash
  index : Nat
  data : List UInt8
deriving DecidableEq, Repr

/-- The source and what the reader remembers of its tiles. -/
structure Reader (σ : Type) where
  source : σ
  authenticated : List (Hash × Nat × Nat)
  leafTiles : List AuthenticatedTile

/-- A reader that has read nothing. -/
def Reader.new {σ : Type} (source : σ) : Reader σ where
  source := source
  authenticated := []
  leafTiles := []

abbrev Reading (σ : Type) := Task MonitorError (Reader σ)

def maxWidthChases : Nat := 4

def leafTileMemo : Nat := 2

/-- How many hashes a tile holds in a tree of `size`. -/
def widthAt (size tileLevel index : Nat) : Nat :=
  min (size / 2 ^ (8 * tileLevel) - index * 256) 256

/-- The bytes in a range of positions, if the data reaches that far. -/
def slice (data : List UInt8) (start stop : Nat) : Option (List UInt8) :=
  if start ≤ stop ∧ stop ≤ data.length then some ((data.drop start).take (stop - start))
  else none

/-- Where the frames of a bundle's first entries end. -/
def framesEnd (path : TilePath) (data : List UInt8) : Nat → Nat → Except MonitorError Nat
  | 0, position => .ok position
  | count + 1, position =>
    match slice data position (position + 2) with
    | some [high, low] =>
      let length := high.toNat * 256 + low.toNat
      if (slice data (position + 2) (position + 2 + length)).isNone then
        .error (.tile (path.text ++ ": truncated entry"))
      else
        framesEnd path data count (position + 2 + length)
    | _ => .error (.tile (path.text ++ ": truncated length"))

/-- Cut a tile that was fetched wider back to a width. -/
def cut (path : TilePath) (data : List UInt8) (width : Nat) : Except MonitorError (List UInt8) :=
  match path.level with
  | .entries => (framesEnd path data width 0).map fun stop => data.take stop
  | .hashes _ =>
    let stop := width * 32
    let length := data.length
    if length < stop then
      .error (.tile (path.text ++ s!": {length} bytes, short of the {stop} the pinned width holds"))
    else
      .ok (data.take stop)

/-- The largest `level ≤ top` whose span divides a position. -/
def alignedLevel (position : Nat) : Nat → Nat
  | 0 => 0
  | level + 1 =>
    if position % 2 ^ (level + 1) = 0 then level + 1 else alignedLevel position level

/-- The complete subtrees a range is made of: the level and the first leaf of
each. -/
def subtreeParts (position stop : Nat) : List (Nat × Nat) :=
  if position < stop then
    let level := alignedLevel position (Nat.log2 (stop - position))
    (level, position) :: subtreeParts (position + 2 ^ level) stop
  else []
termination_by stop - position
decreasing_by
  have hspan : 0 < 2 ^ alignedLevel position (Nat.log2 (stop - position)) :=
    Nat.two_pow_pos _
  omega

section Reading

variable {σ : Type} (sha256 : List UInt8 → Hash) (source : TileSource σ) (size : Nat)

def fetch (path : TilePath) : Reading σ (Option (List UInt8)) :=
  fun reader =>
    let (answer, next) := source.fetch path reader.source
    (answer, { reader with source := next })

def checkpointSize : Reading σ (Option Nat) :=
  fun reader =>
    let (answer, next) := source.checkpointSize reader.source
    (answer, { reader with source := next })

def isMissing (path : TilePath) : MonitorError :=
  .tile (path.text ++ " is missing")

/-- Ask for a partial tile again at the width the log has grown to. -/
def chaseWidth (path : TilePath) (tileLevel : Nat) : Nat → Nat → Reading σ (List UInt8)
  | 0, _ => throw (isMissing path)
  | chases + 1, widthNow =>
    if widthNow = 256 then throw (isMissing path)
    else do
      match ← checkpointSize source with
      | none => throw (isMissing path)
      | some now =>
        let widened := widthAt now tileLevel path.index
        if widened ≤ widthNow then throw (isMissing path)
        else
          let wider := { path with width := widened }
          match ← fetch source wider with
          | some data => Task.ofExcept (cut wider data path.width)
          | none => chaseWidth path tileLevel chases widened

/-- The bytes of a tile at the width the pinned size names. -/
def tileBytes (level : TileLevel) (tileLevel index width : Nat) : Reading σ (List UInt8) := do
  let path : TilePath := ⟨level, index, width⟩
  match ← fetch source path with
  | some data => return data
  | none => chaseWidth source path tileLevel maxWidthChases width

def hashTile (tileLevel index : Nat) : Reading σ (List UInt8) := do
  let width := widthAt size tileLevel index
  Task.refuseIf (width = 0) (.tile s!"tile {tileLevel}/{index} holds nothing at tree size {size}")
  let data ← tileBytes source (.hashes tileLevel) tileLevel index width
  let length := data.length
  let expected := width * 32
  let message := s!"hash tile {tileLevel}/{index} is {length} bytes, not the {expected} a " ++
    s!"{width}-hash tile holds at tree size {size}"
  Task.refuseIf (length ≠ expected) (.tile message)
  return data

/-- The node over a run of hashes, `none` unless the run is `32 * 2 ^ k` bytes. -/
def fold (data : List UInt8) : Option Hash :=
  if hone : data.length = 32 then some ⟨data, hone⟩
  else
    let count := data.length / 32
    if hrun : data.length % 32 ≠ 0 ∨ count = 0 ∨ 2 ^ Nat.log2 count ≠ count then none
    else do
      let half := data.length / 2
      let left ← fold (data.take half)
      let right ← fold (data.drop half)
      some (nodeHash sha256 left right)
termination_by data.length
decreasing_by
  all_goals simp only [List.length_take, List.length_drop]
  all_goals omega

/-- The hash of the complete subtree at a level and an index. -/
def storedHash (level index : Nat) : Reading σ Hash := do
  let tileLevel := level / 8
  let within := level % 8
  Task.refuseIf (2 ^ (64 - within) ≤ index) (.tile s!"node ({level},{index}) is not addressable")
  let shifted := index * 2 ^ within
  let tileIndex := shifted / 256
  let offset := index - tileIndex * 256 / 2 ^ within
  let data ← hashTile source size tileLevel tileIndex
  let start := offset * 2 ^ within * 32
  let stop := (offset + 1) * 2 ^ within * 32
  let run ← Task.orRefuse (slice data start stop)
    (.tile s!"node ({level},{index}) is past the end of tile {tileLevel}/{tileIndex}")
  let length := run.length
  let message :=
    s!"node ({level},{index}) spans {length} bytes of tile {tileLevel}/{tileIndex}, " ++
      "which is not a run of complete-subtree hashes"
  Task.orRefuse (fold sha256 run) (.tile message)

/-- The hash over the parts of a range, folded from the right. -/
def foldParts : List Hash → Option Hash
  | [] => none
  | [last] => some last
  | part :: rest => (foldParts rest).map (nodeHash sha256 part)

/-- The Merkle tree hash over the leaves of a range. -/
def subtreeHash (lo hi : Nat) : Reading σ Hash := do
  Task.refuseIf (lo ≥ hi) (.tile s!"empty range [{lo},{hi})")
  let hashes ← (subtreeParts lo hi).mapM fun part =>
    storedHash sha256 source size part.1 (part.2 / 2 ^ part.1)
  -- the range is not empty, so there is a last part
  Task.orRefuse (foldParts sha256 hashes) (.tile "non-empty range")

/-- The Merkle root of the whole tree. -/
def root : Reading σ Hash :=
  if size = 0 then return sha256 [] else subtreeHash sha256 source size 0 size

variable (tile : Nat)

/-- The hash of a part of the tree, out of the bytes of a level-0 tile where it
lies in the tile. -/
def partHash (data : List UInt8) (part : Nat × Nat) : Reading σ Hash := do
  let (level, position) := part
  let index := position / 2 ^ level
  let base := tile * 256
  if level < 8 ∧ position ≥ base ∧ position - base < 256 then
    let start := (position - base) * 32
    let length := data.length
    let message := s!"the frontier hash tile 0/{tile} is {length} bytes, too short to hold " ++
      s!"the subtree at ({level},{index})"
    let run ← Task.orRefuse (slice data start (start + 2 ^ level * 32)) (.tile message)
    let unfoldable := s!"the frontier hash tile 0/{tile} is not a run of complete-subtree " ++
      "hashes"
    Task.orRefuse (fold sha256 run) (.tile unfoldable)
  else
    storedHash sha256 source size level index

/-- The Merkle root, with one level-0 tile read out of the given bytes. -/
def rootOver (data : List UInt8) : Reading σ Hash := do
  let hashes ← (subtreeParts 0 size).mapM (partHash sha256 source size tile data)
  Task.orRefuse (foldParts sha256 hashes) (.tile "a tree with a frontier is non-empty")

/-! ## Authentication -/

variable (root : Hash)

def markAuthenticated (tileLevel index : Nat) : Reading σ Unit :=
  Task.change fun reader =>
    { reader with authenticated := (root, tileLevel, index) :: reader.authenticated }

/-- The remembered bytes of a level-0 tile. -/
def rememberedIn (index : Nat) (tiles : List AuthenticatedTile) : Option (List UInt8) :=
  (tiles.find? fun held => held.root = root ∧ held.index = index).map (·.data)

def rememberedLeafTile (index : Nat) : Reading σ (Option (List UInt8)) :=
  Task.read fun reader => rememberedIn root index reader.leafTiles

/-- Keep the bytes of a level-0 tile, unless some are held for it; the oldest go
first. -/
def rememberIn (tile : AuthenticatedTile) (tiles : List AuthenticatedTile) :
    List AuthenticatedTile :=
  if tiles.any fun held => held.root = tile.root ∧ held.index = tile.index then tiles
  else
    let kept := tiles ++ [tile]
    kept.drop (kept.length - leafTileMemo)

def rememberLeafTile (index : Nat) (data : List UInt8) : Reading σ Unit :=
  Task.change fun reader =>
    { reader with leafTiles := rememberIn ⟨root, index, data⟩ reader.leafTiles }

/-- The tiles to check on the way up from a tile: to one that is authenticated,
or to the frontier. -/
def chainUp (authenticated : List (Hash × Nat × Nat)) (root : Hash) (level position : Nat) :
    List (Nat × Nat) :=
  if (root, level, position) ∈ authenticated then []
  else
    (level, position) ::
      if widthAt size level position ≠ 256 then []
      else chainUp authenticated root (level + 1) (position / 256)
termination_by size / 2 ^ (8 * level)
decreasing_by
  rename_i hfull
  have hspan : 256 ≤ size / 2 ^ (8 * level) := by
    unfold widthAt at hfull
    omega
  have hpow : 2 ^ (8 * (level + 1)) = 2 ^ (8 * level) * 256 := by
    rw [Nat.mul_succ, Nat.pow_add]
  rw [hpow, ← Nat.div_div_eq_div_mul]
  omega

def doesNotFold (level position : Nat) : MonitorError :=
  .tile (s!"hash tile {level}/{position} does not fold to the node its parent tile " ++
    "stores for it: the log is serving tiles that do not belong to the tree it signed")

def doesNotRecompute (level position : Nat) : MonitorError :=
  .tile (s!"the frontier hash tile {level}/{position} does not recompute the " ++
    "checkpoint's root")

def isNoRun (level position length : Nat) : MonitorError :=
  .tile (s!"hash tile {level}/{position} is {length} bytes, which is not a run of " ++
    "complete-subtree hashes")

/-- Check a full tile against the node its parent tile stores for it. -/
def checkFullTile (level position : Nat) : Reading σ Unit := do
  let data ← hashTile source size level position
  let parent ← storedHash sha256 source size (8 * (level + 1)) position
  let folded ← Task.orRefuse (fold sha256 data) (isNoRun level position data.length)
  Task.refuseIf (folded ≠ parent) (doesNotFold level position)
  if level = 0 then rememberLeafTile root position data else pure ()

/-- Check the frontier tile of level 0: the root is recomputed over its bytes. -/
def checkFrontierLeaves (position : Nat) : Reading σ Unit := do
  let data ← hashTile source size 0 position
  let computed ← rootOver sha256 source size position data
  Task.refuseIf (computed ≠ root) (doesNotRecompute 0 position)
  rememberLeafTile root position data

/-- Check the frontier tile of a higher level: the root is recomputed. -/
def checkFrontierTile (level position : Nat) : Reading σ Unit := do
  let computed ← Transparency.root sha256 source size
  Task.refuseIf (computed ≠ root) (doesNotRecompute level position)

def checkTile (place : Nat × Nat) : Reading σ PUnit := do
  if widthAt size place.1 place.2 = 256 then
    checkFullTile sha256 source size root place.1 place.2
  else if place.1 = 0 then
    checkFrontierLeaves sha256 source size root place.2
  else
    checkFrontierTile sha256 source size root place.1 place.2
  markAuthenticated root place.1 place.2

def authenticateTile (tileLevel index : Nat) (root : Hash) : Reading σ PUnit := do
  let chain ← Task.read fun reader =>
    chainUp size reader.authenticated root tileLevel index
  chain.reverse.forM (checkTile sha256 source size root)

/-- Bind the bytes of a level-0 tile as its authentication does. -/
def bindLeafTile (data : List UInt8) (root : Hash) : Reading σ Unit :=
  if widthAt size 0 tile = 256 then do
    let folded ← Task.orRefuse (fold sha256 data) (isNoRun 0 tile data.length)
    let parent ← storedHash sha256 source size 8 tile
    Task.refuseIf (folded ≠ parent) (doesNotFold 0 tile)
  else do
    let computed ← rootOver sha256 source size tile data
    Task.refuseIf (computed ≠ root) (doesNotRecompute 0 tile)

/-- Read a level-0 tile that is no longer remembered. -/
def refetchLeafTile (root : Hash) : Reading σ (List UInt8) := do
  let data ← hashTile source size 0 tile
  bindLeafTile sha256 source size tile data root
  rememberLeafTile root tile data
  return data

/-- The bytes of an authenticated level-0 tile: the remembered ones, or new ones
bound again. -/
def leafTile (root : Hash) : Reading σ (List UInt8) := do
  match ← rememberedLeafTile root tile with
  | some data => return data
  | none => refetchLeafTile sha256 source size tile root

/-- Bind the body of an entry to a checkpoint's root. -/
def verifyLeaf (index : Nat) (body : List UInt8) (root : Hash) : Reading σ Unit := do
  Task.refuseIf (index ≥ size) (.tile s!"entry {index} is outside a tree of {size}")
  let tile := index / 256
  authenticateTile sha256 source size 0 tile root
  let data ← leafTile sha256 source size tile root
  let start := (index - tile * 256) * 32
  let stored ← Task.orRefuse (slice data start (start + 32))
    (.tile s!"entry {index} is past the end of tile 0/{tile}")
  Task.refuseIf (stored ≠ (leafHash sha256 body).bytes)
    (.tile (s!"entry {index} does not hash to the leaf the signed checkpoint " ++ "committed to"))

end Reading

end Synch.Transparency
