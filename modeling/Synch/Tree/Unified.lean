import Mathlib.Data.String.Basic
import Synch.Records.FileEntry
import Synch.Support.Ranking
import Synch.Tree.Git

/-!
# The unified tree

One path carries one version per distinct assertion published for it, with the
origins that assert it as its attestors.  A version set groups the rows of a path
into its versions, and a policy selects one row of it.  Times are read as no later
than the reader's clock.
-/

namespace Synch.Tree

open Synch.Records Synch.Support

/-- One origin's entry for a path.  An origin is its canonical text. -/
structure EntryRow where
  origin : String
  space : String
  path : String
  kind : EntryKind
  size : Nat
  mtimeNs : Int
  unixMode : Option Nat
  content : Option Hash
  seq : Nat
  prev : Option Hash
  symlinkTarget : Option String
deriving DecidableEq, Repr

/-- Which version of a path a reading surface takes. -/
inductive VersionPolicy where
  | newest
  | origin (origin : String)
  | strict
deriving DecidableEq, Repr

/-- One version of a path: a distinct assertion, and everyone asserting it. -/
structure Version where
  content : Option Hash
  kind : EntryKind
  symlinkTarget : Option String
  size : Nat
  mtimeNs : Int
  seq : Nat
  attestors : List String
deriving DecidableEq, Repr

def Version.isTombstone (version : Version) : Bool :=
  version.kind == .tombstone

/-- Every version of one path, and the entries behind them. -/
structure VersionSet where
  space : String
  path : String
  versions : List Version
  entries : List EntryRow
  git : Option GitClass
deriving DecidableEq, Repr

/-- What applying a policy to a version set produced. -/
inductive Selection where
  | selected (entry : EntryRow)
  | absent
  | divergent
deriving DecidableEq, Repr

/-! ## Identity -/

/-- What makes two assertions one version. -/
abbrev Identity := EntryKind × Option Hash × Option String

def contentOf (entry : EntryRow) : Option Hash :=
  match entry.kind with
  | .tombstone | .symlink => none
  | _ => entry.content

variable (git : Option GitClass)

/-- The one derivation of an identity.  A deletion is a deletion, a link is its
target, and a git object is its name. -/
def identityOf (kind : EntryKind) (content : Option Hash)
    (symlinkTarget : Option String) : Identity :=
  match kind with
  | .tombstone => (kind, none, none)
  | .symlink => (kind, none, some (symlinkTarget.getD ""))
  | _ => if git = some .object then (kind, none, none) else (kind, content, none)

def identity (entry : EntryRow) : Identity :=
  identityOf git entry.kind entry.content entry.symlinkTarget

def identityOfVersion (version : Version) : Identity :=
  identityOf git version.kind version.content version.symlinkTarget

/-- The classes for which a deletion competes with live versions. -/
def deletionIsAnUpdate : Bool :=
  git == some .ref || git == some .worktreeState

/-- The part of an identity that the order reads: the content, then the link
target.  The kind has no part in it. -/
def contentAndTarget (i : Identity) : WithBot (List Nat) ×ₗ WithBot String :=
  toLex (i.2.1.map fun hash => hash.bytes.map UInt8.toNat, i.2.2)

def readTime (now : Int) (entry : EntryRow) : Int :=
  min entry.mtimeNs now

/-- The order that `newest` maximizes. -/
def entryKey (now : Int) : EntryRow → Int ×ₗ (WithBot (List Nat) ×ₗ WithBot String) ×ₗ String :=
  rowKey (readTime now) contentAndTarget EntryRow.origin (identity git)

/-- The same order at version granularity. -/
def versionKey (now : Int) (version : Version) :
    Int ×ₗ (WithBot (List Nat) ×ₗ WithBot String) ×ₗ String :=
  toLex (min version.mtimeNs now,
    toLex (contentAndTarget (identityOfVersion git version), (maxBy id version.attestors).getD ""))

/-! ## Grouping -/

def Version.ofEntry (entry : EntryRow) : Version where
  content := contentOf entry
  kind := entry.kind
  symlinkTarget := entry.symlinkTarget
  size := entry.size
  mtimeNs := entry.mtimeNs
  seq := entry.seq
  attestors := [entry.origin]

def Version.attest (version : Version) (entry : EntryRow) : Version :=
  { version with
    mtimeNs := max version.mtimeNs entry.mtimeNs
    seq := max version.seq entry.seq
    attestors := version.attestors ++ [entry.origin] }

/-- Adds an entry to the version it asserts, or makes that version. -/
def addEntry (git : Option GitClass) : List Version → EntryRow → List Version
  | [], entry => [Version.ofEntry entry]
  | version :: versions, entry =>
    if identityOfVersion git version = identity git entry then
      version.attest entry :: versions
    else version :: addEntry git versions entry

def groupEntries (entries : List EntryRow) : List Version :=
  entries.foldl (addEntry git) []

/-- While a git object is published, its deletion is not a version. -/
def retainVersions (versions : List Version) : List Version :=
  if git = some .object ∧ versions.any (fun v => !v.isTombstone) then
    versions.filter fun v => !v.isTombstone
  else versions

namespace VersionSet

def fromEntries (space path : String) (entries : List EntryRow) (now : Int) : VersionSet :=
  let entries := sortBy EntryRow.origin entries
  let git := gitClass path
  let versions := retainVersions git (groupEntries git entries)
  { space := space
    path := path
    versions := sortBy (versionKey git now) versions
    entries := entries
    git := git }

variable (set : VersionSet)

def isDivergent : Bool :=
  set.versions.length > 1

/-- The path is in the unified tree. -/
def exists? : Bool :=
  if deletionIsAnUpdate set.git then
    match set.versions.getLast? with
    | none => false
    | some version => !version.isTombstone
  else set.versions.any fun v => !v.isTombstone

/-- The entry of greatest rank, among the live ones where deletions do not compete. -/
def selectNewest (now : Int) : Selection :=
  let running := set.entries.filter fun entry =>
    deletionIsAnUpdate set.git || entry.kind != .tombstone
  match maxBy (entryKey set.git now) running with
  | some entry => .selected entry
  | none => .absent

/-- Applies a version policy. -/
def select (policy : VersionPolicy) (now : Int) : Selection :=
  match policy with
  | .origin origin =>
    match set.entries.find? fun entry => entry.origin = origin with
    | some entry => .selected entry
    | none => .absent
  | .strict => if set.isDivergent then .divergent else set.selectNewest now
  | .newest => set.selectNewest now

end VersionSet

/-! ## Small facts -/

variable (git : Option GitClass)

theorem identityOf_kind (kind : EntryKind) (content : Option Hash) (symlinkTarget : Option String) :
    (identityOf git kind content symlinkTarget).1 = kind := by
  unfold identityOf
  split
  · rfl
  · rfl
  · split <;> rfl

@[simp]
theorem identity_kind (entry : EntryRow) : (identity git entry).1 = entry.kind :=
  identityOf_kind git _ _ _

@[simp]
theorem identityOfVersion_kind (version : Version) :
    (identityOfVersion git version).1 = version.kind :=
  identityOf_kind git _ _ _

@[simp]
theorem identityOfVersion_ofEntry (entry : EntryRow) :
    identityOfVersion git (Version.ofEntry entry) = identity git entry := by
  unfold identityOfVersion identity Version.ofEntry contentOf identityOf
  cases entry.kind <;> rfl

@[simp]
theorem identityOfVersion_attest (version : Version) (entry : EntryRow) :
    identityOfVersion git (version.attest entry) = identityOfVersion git version :=
  rfl

/-- Adding an entry makes a version at the end, or adds an attestor to one. -/
theorem addEntry_cases (versions : List Version) (entry : EntryRow) :
    ((∀ v ∈ versions, identityOfVersion git v ≠ identity git entry) ∧
        addEntry git versions entry = versions ++ [Version.ofEntry entry]) ∨
      ∃ front version back,
        versions = front ++ version :: back ∧
          identityOfVersion git version = identity git entry ∧
            addEntry git versions entry = front ++ version.attest entry :: back := by
  induction versions with
  | nil => exact .inl ⟨by simp, rfl⟩
  | cons version versions ih =>
    by_cases hsame : identityOfVersion git version = identity git entry
    · exact .inr ⟨[], version, versions, rfl, hsame, by simp [addEntry, hsame]⟩
    · obtain ⟨hnone, hadd⟩ | ⟨front, found, back, hsplit, hfound, hadd⟩ := ih
      · exact .inl ⟨by simpa [hsame] using hnone, by simp [addEntry, hsame, hadd]⟩
      · exact .inr ⟨version :: front, found, back, by simp [hsplit], hfound,
          by simp [addEntry, hsame, hadd]⟩

end Synch.Tree
