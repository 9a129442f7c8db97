import Mathlib.Data.List.Basic

/-!
# Git directories in the tree

What a path inside a git directory is to the sync engine.  The class is a
function of the path alone, so every node derives the same one from the same key.
Paths are read as lists of characters, and a position in a path is the number of
components before it.
-/

namespace Synch.Tree

/-- What a path inside a git directory is. -/
inductive GitClass where
  | transient
  | machineLocal
  | pointer
  | object
  | objectCache
  | ref
  | worktreeState
  | repository
deriving DecidableEq, Repr

/-- The order a consumer writes classes in. -/
def GitClass.materializeRank : GitClass → Nat
  | repository | pointer => 0
  | object => 1
  | objectCache => 2
  | ref => 3
  | worktreeState => 4
  | transient | machineLocal => 5

/-- The classes that a consumer never writes and a scan never publishes. -/
def GitClass.isExcluded : GitClass → Bool
  | transient | machineLocal => true
  | _ => false

/-- A classified path: the root of its git directory and the path inside it. -/
structure GitPath where
  root : String
  inner : String
  cls : GitClass
deriving DecidableEq, Repr

/-- What is left of a text after a beginning. -/
def stripStart (start text : List Char) : Option (List Char) :=
  if start.isPrefixOf text then some (text.drop start.length) else none

/-- The parts of a text before and after the last of a character. -/
def rsplitOnce (c : Char) (text : List Char) : Option (List Char × List Char) :=
  match text.reverse.span (· != c) with
  | (_, []) => none
  | (after, _ :: front) => some (front.reverse, after.reverse)

def joinSlash (components : List (List Char)) : List Char :=
  ['/'].intercalate components

def isAsciiHexdigit (c : Char) : Bool :=
  ('0' ≤ c && c ≤ '9') || ('a' ≤ c && c ≤ 'f') || ('A' ≤ c && c ≤ 'F')

/-! ## Classes inside a git directory -/

/-- A path is another or lies under it. -/
def under (inner base : List Char) : Bool :=
  match stripStart base inner with
  | none => false
  | some rest => rest.isEmpty || rest.head? == some '/'

def isHexDir (name : List Char) : Bool :=
  name.length == 2 && name.all isAsciiHexdigit

def isLooseObjectName (name : List Char) : Bool :=
  (name.length == 38 || name.length == 62) && name.all isAsciiHexdigit

def packExtensions : List (List Char) :=
  ["pack", "idx", "rev", "bitmap", "keep", "promisor", "mtimes"].map String.toList

def isPackFile (name : List Char) : Bool :=
  match stripStart "pack-".toList name with
  | none => false
  | some rest =>
    match rsplitOnce '.' rest with
    | none => false
    | some (hash, ext) =>
      !hash.isEmpty && hash.all isAsciiHexdigit && packExtensions.contains ext

/-- The class that the two names after `objects/` settle, if they do. -/
def objectsClass (rest : List Char) : Option GitClass :=
  match rest.splitOn '/' with
  | [a] => if "tmp_".toList.isPrefixOf a then some .transient else none
  | [a, b] =>
    if a == "pack".toList &&
        ("tmp_".toList.isPrefixOf b || ".tmp-".toList.isPrefixOf b) then some .transient
    else if isHexDir a && "tmp_obj_".toList.isPrefixOf b then some .transient
    else if isHexDir a && isLooseObjectName b then some .object
    else if a == "pack".toList && isPackFile b then some .object
    else if a == "pack".toList && "multi-pack-index".toList.isPrefixOf b then
      some .objectCache
    else if a == "info".toList &&
        (b == "alternates".toList || b == "http-alternates".toList) then
      some .machineLocal
    else if a == "info".toList then some .objectCache
    else none
  | a :: _ :: _ :: _ => if a == "info".toList then some .objectCache else none
  | [] => none

variable (inner : List Char)

def isTransient : Bool :=
  let last := (inner.splitOn '/').getLastD inner
  ".lock".toList.isSuffixOf last
    || inner == "gc.pid".toList
    || inner == "gc.log".toList
    || inner == "fsmonitor--daemon.ipc".toList
    || under inner "fsmonitor--daemon".toList
    || under inner "lfs/tmp".toList
    || under inner "lfs/incomplete".toList
    || under inner "refs/synch".toList

def isRef : Bool :=
  inner == "HEAD".toList
    || inner == "packed-refs".toList
    || inner == "shallow".toList
    || under inner "refs".toList
    || under inner "reftable".toList

def worktreeNames : List (List Char) :=
  ["ORIG_HEAD", "FETCH_HEAD", "MERGE_HEAD", "MERGE_MSG", "MERGE_MODE", "MERGE_RR",
    "MERGE_AUTOSTASH", "REBASE_HEAD", "CHERRY_PICK_HEAD", "REVERT_HEAD",
    "COMMIT_EDITMSG", "SQUASH_MSG", "AUTO_MERGE", "NOTES_MERGE_PARTIAL",
    "NOTES_MERGE_REF"].map String.toList

def isWorktreeState : Bool :=
  inner == "index".toList
    || "sharedindex.".toList.isPrefixOf inner
    || worktreeNames.contains inner
    || "BISECT_".toList.isPrefixOf inner
    || under inner "rebase-merge".toList
    || under inner "rebase-apply".toList
    || under inner "sequencer".toList
    || under inner "logs".toList
    || under inner "rr-cache".toList

/-- The class of what is left once the names under `objects/` settled nothing. -/
def remainingClass : GitClass :=
  if under inner "objects".toList || under inner "lfs/objects".toList then .object
  else if inner == "gitdir".toList then .machineLocal
  else if isRef inner then .ref
  else if isWorktreeState inner then .worktreeState
  else .repository

/-- The class of a path inside a git directory. -/
def classOf : GitClass :=
  if isTransient inner then .transient
  else ((stripStart "objects/".toList inner).bind objectsClass).getD (remainingClass inner)

/-! ## Roots -/

/-- The names git itself keeps at the top level of a git directory. -/
def topLevelNames : List (List Char) :=
  ["HEAD", "ORIG_HEAD", "FETCH_HEAD", "MERGE_HEAD", "REBASE_HEAD", "CHERRY_PICK_HEAD",
    "REVERT_HEAD", "COMMIT_EDITMSG", "config", "index", "packed-refs", "shallow",
    "description", "objects", "refs", "logs", "info", "hooks", "worktrees", "modules",
    "branches", "remotes", "lfs", "rr-cache", "sequencer", "rebase-merge",
    "rebase-apply", "reftable", "gc.pid", "gc.log"].map String.toList

section Scan

variable (components : List (List Char))

def componentName (i : Nat) : List Char :=
  components.getD i []

/-- The last component of a submodule's name, which starts at `nameEnd`.  The name
runs until one that git keeps at the top of a git directory. -/
def submoduleEnd : (fuel nameEnd : Nat) → Nat
  | 0, nameEnd => nameEnd
  | fuel + 1, nameEnd =>
    if nameEnd + 1 < components.length - 1 &&
        !topLevelNames.contains (componentName components (nameEnd + 1)) then
      submoduleEnd fuel (nameEnd + 1)
    else nameEnd

inductive RootSearch where
  | pointer
  | ended (rootEnd : Option Nat)
deriving DecidableEq, Repr

/-- The search from component `i` on.  A root is the number of components it takes,
so the component at that position is the first inside it.  Every turn moves on, so
as many turns as there are components are enough. -/
def findRoot : (fuel i : Nat) → Option Nat → RootSearch
  | 0, _, rootEnd => .ended rootEnd
  | fuel + 1, i, rootEnd =>
    let last := components.length - 1
    if i ≤ last then
      let component := componentName components i
      match rootEnd with
      | none =>
        if component == ".git".toList then
          if i == last then .pointer else findRoot fuel (i + 1) (some (i + 1))
        else if i < last && 4 < component.length &&
            ".git".toList.isSuffixOf component then
          findRoot fuel (i + 1) (some (i + 1))
        else findRoot fuel (i + 1) none
      | some rootEnd =>
        let firstInside := i == rootEnd
        if firstInside && component == "worktrees".toList && i + 2 ≤ last then
          findRoot fuel (i + 2) (some (i + 2))
        else if firstInside && component == "modules".toList && i + 2 ≤ last then
          let nameEnd := submoduleEnd components components.length (i + 1)
          findRoot fuel (nameEnd + 1) (some (nameEnd + 1))
        else findRoot fuel (i + 1) (some rootEnd)
    else .ended rootEnd

end Scan

/-- Classifies a normalized path; none outside every git directory. -/
def classify (path : String) : Option GitPath :=
  let components := path.toList.splitOn '/'
  match findRoot components components.length 0 none with
  | .pointer => some { root := path, inner := "", cls := .pointer }
  | .ended none => none
  | .ended (some rootEnd) =>
    let inner := joinSlash (components.drop rootEnd)
    some {
      root := String.ofList (joinSlash (components.take rootEnd))
      inner := String.ofList inner
      cls := classOf inner }

def gitClass (path : String) : Option GitClass :=
  (classify path).map GitPath.cls

example : classify "src/app/.git/modules/lib/foo/refs/heads/main" =
    some ⟨"src/app/.git/modules/lib/foo", "refs/heads/main", .ref⟩ := by
  decide +kernel

end Synch.Tree
