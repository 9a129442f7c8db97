import Synch.Tuf.Metadata

/-!
# Updates of the pinned state

A client holds the root it trusts, the roots that led there, and the versions it has accepted.  An
update walks the roots it is given, checks the timestamp, the snapshot and the targets under the
last of them, and the target file under the targets.
-/

namespace Synch.Tuf

open Std Synch.Support
open Synch.Transparency (RawKey LogKey LogKeys)

/-! ## Checks of one file -/

/-- A pre-epoch expiry is past. -/
def Meta.checkExpiry (file : Meta) (now : Nat) : Except TufError Unit :=
  refuseIf (¬(0 ≤ file.expires ∧ now < file.expires.toNat))
    (.expiry s!"{file.role}.json version {file.version} expired at {file.expires}")

def Meta.checkRollback (file : Meta) (accepted : Nat) : Except TufError Unit :=
  refuseIf (file.version < accepted)
    (.rollback s!"{file.role}.json version {file.version} is older than the accepted {accepted}")

def equalIgnoringCase (a b : String) : Bool :=
  a.toList.map Char.toLower == b.toList.map Char.toLower

section Files

variable (lib : Library)

def checkHashes (name : String) (entry : Value) (bytes : List UInt8) : Except TufError Unit := do
  match (entry.get "length").asU64 with
  | none => pure ()
  | some length =>
    refuseIf (length ≠ bytes.length)
      (.targetHash s!"{name} is {bytes.length} bytes, the metadata says {length}")
  match ((entry.get "hashes").get "sha256").asStr with
  | none => pure ()
  | some expected =>
    let actual := (lib.sha256 bytes).toHex
    refuseIf (equalIgnoringCase expected actual = false)
      (.targetHash s!"{name} hashes to {actual}, the metadata says {expected}")

/-- A file that another one lists: its version exactly, length and hash where they are given. -/
def Meta.checkListed (file : Meta) (name : String) (bytes : List UInt8) (version : Nat) :
    Except TufError Unit := do
  let entry := (file.signed.get "meta").get name
  let listed ← orRefuse (entry.get "version").asU64
    (.chain s!"{file.role}.json does not list {name}")
  refuseIf (listed ≠ version) (.rollback
    s!"{file.role}.json names {name} version {listed}, the walk collected {version}")
  checkHashes lib name entry bytes

def Meta.checkTarget (file : Meta) (name : String) (bytes : List UInt8) : Except TufError Unit := do
  let entry := (file.signed.get "targets").get name
  refuseIf (entry.isNull = true)
    (.targetHash s!"targets.json version {file.version} names no {name}")
  refuseIf (((entry.get "hashes").get "sha256").asStr = none)
    (.targetHash s!"targets.json gives no sha256 for {name}")
  checkHashes lib name entry bytes

/-! ## The logs of a trusted root -/

/-- The host a log is served at. -/
def noteOrigin (baseUrl : List Char) : Option String :=
  let rest :=
    if "https://".toList <+: baseUrl then some (baseUrl.drop 8)
    else if "http://".toList <+: baseUrl then some (baseUrl.drop 7)
    else none
  rest.bind fun rest =>
    let host := ((rest.takeWhile (· ≠ '/')).reverse.dropWhile (· = '.')).reverse
    if host = [] then none else some (String.ofList (host.map Char.toLower))

/-- A log of a trusted root, if this client can read it. -/
def readTlog (tlog : Value) : Option LogKey := do
  let raw ← ((tlog.get "publicKey").get "rawBytes").asStr
  let spki ← base64Decode raw.toList
  let key ← fromSpki spki
  let baseUrl ← (tlog.get "baseUrl").asStr
  let trimmed := (baseUrl.toList.reverse.dropWhile (· = '/')).reverse
  return { id := lib.sha256 spki, key, origin := noteOrigin trimmed }

def tlogKeys (trustedRoot : List UInt8) : Except TufError LogKeys := do
  let value ← reword (fun e => .malformed s!"trusted root: {e}") (lib.fromSlice trustedRoot)
  let entries ← orRefuse (value.get "tlogs").asArray
    (.malformed "trusted root: tlogs is not an array")
  let logs := entries.filterMap (readTlog lib)
  refuseIf (logs = [])
    (.malformed "trusted root: it names no transparency logs this build can read")
  return ⟨logs⟩

/-! ## Updates -/

/-- One walk of a repository. -/
structure TufMetadata where
  roots : List (List UInt8)
  timestamp : List UInt8
  snapshot : List UInt8
  targets : List UInt8
  trustedRoot : List UInt8

structure PinState where
  root : List UInt8
  /-- Every root accepted beyond the anchor. -/
  rootChain : List (List UInt8)
  rootVersion : Nat
  timestampVersion : Nat
  snapshotVersion : Nat
  targetsVersion : Nat
  targets : List UInt8
  trustedRoot : List UInt8
  updatedAt : Nat
  anchorDigest : Hash
deriving DecidableEq

/-- The version of a root file, without a check of anything. -/
def rootVersion (bytes : List UInt8) : Option Nat :=
  match lib.fromSlice bytes with
  | .ok value => ((value.get "signed").get "version").asU64
  | .error _ => none

def PinState.anchored (anchor : List UInt8) : PinState where
  root := anchor
  rootChain := []
  rootVersion := (Tuf.rootVersion lib anchor).getD 0
  timestampVersion := 0
  snapshotVersion := 0
  targetsVersion := 0
  targets := []
  trustedRoot := []
  updatedAt := 0
  anchorDigest := lib.sha256 anchor

structure TufUpdate where
  state : PinState
  logKeys : LogKeys
  changed : Bool

/-- One root of the walk: one already passed is skipped, the next is checked under both. -/
def walkRoot (walk : Root × List (List UInt8)) (bytes : List UInt8) :
    Except TufError (Root × List (List UInt8)) := do
  let (trusted, chain) := walk
  let candidate ← Root.parse lib bytes
  if candidate.version ≤ trusted.version then return (trusted, chain)
  else
    refuseIf (candidate.version ≠ trusted.version + 1) (.chain
      s!"root {candidate.version} follows root {trusted.version}, and nothing bridges them")
    trusted.checkRole lib "root" candidate.file
    candidate.checkRole lib "root" candidate.file
    return (candidate, chain ++ [candidate.bytes])

def update (metadata : TufMetadata) (state : PinState) (now : Nat) : Except TufError TufUpdate := do
  let start ← Root.parse lib state.root
  let (trusted, chain) ← metadata.roots.foldlM (walkRoot lib) (start, state.rootChain)
  refuseIf (trusted.version < state.rootVersion) (.rollback
    s!"root {trusted.version} is older than the accepted root {state.rootVersion}")
  trusted.file.checkExpiry now
  let timestamp ← Meta.parse lib metadata.timestamp "timestamp"
  trusted.checkRole lib "timestamp" timestamp
  timestamp.checkExpiry now
  timestamp.checkRollback state.timestampVersion
  let snapshot ← Meta.parse lib metadata.snapshot "snapshot"
  timestamp.checkListed lib "snapshot.json" metadata.snapshot snapshot.version
  trusted.checkRole lib "snapshot" snapshot
  snapshot.checkExpiry now
  snapshot.checkRollback state.snapshotVersion
  let targets ← Meta.parse lib metadata.targets "targets"
  snapshot.checkListed lib "targets.json" metadata.targets targets.version
  trusted.checkRole lib "targets" targets
  targets.checkExpiry now
  targets.checkRollback state.targetsVersion
  targets.checkTarget lib "trusted_root.json" metadata.trustedRoot
  let logKeys ← tlogKeys lib metadata.trustedRoot
  let changed := trusted.version ≠ state.rootVersion ∨
    timestamp.version ≠ state.timestampVersion ∨ snapshot.version ≠ state.snapshotVersion ∨
    targets.version ≠ state.targetsVersion ∨ metadata.trustedRoot ≠ state.trustedRoot
  return {
    state := {
      root := trusted.bytes
      rootChain := chain
      rootVersion := trusted.version
      timestampVersion := timestamp.version
      snapshotVersion := snapshot.version
      targetsVersion := targets.version
      targets := metadata.targets
      trustedRoot := metadata.trustedRoot
      updatedAt := now
      anchorDigest := state.anchorDigest }
    logKeys
    changed := decide changed }

/-- A call: what it is given, and the time. -/
abbrev Call := TufMetadata × Nat

/-- The state a client holds after a call. -/
def adopt (state : PinState) (call : Call) : PinState :=
  match update lib call.1 state call.2 with
  | .ok accepted => accepted.state
  | .error _ => state

end Files

end Synch.Tuf
