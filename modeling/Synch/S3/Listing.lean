import Synch.Support.Paging
import Synch.Tree.Listing

/-!
# Listing a bucket

The gateway asks the daemon for one row more than the page holds, and the daemon
serves the rows of the unified tree that are live and resolve.  Rows it drops are made
up for by scanning on, up to a budget; past the budget it names the path it reached.
The gateway turns rows into objects, rolls rows with the delimiter into common
prefixes, and hands out the last path it dealt with as the token of the next page.
-/

namespace Synch.S3

open Synch.Support Synch.Tree

/-! ## Query parameters -/

/-- A query as the handlers read it: names and values, in the order sent. -/
abbrev Query := List (String × String)

/-- The value the handlers act on: the first of a name. -/
def param (query : Query) (name : String) : Option String :=
  (query.find? fun pair => pair.1 = name).map Prod.snd

/-- A text as a machine word of 64 bits: decimal digits, after a plus sign if any. -/
def parseUsize (text : String) : Option Nat :=
  let digits := if text.toList.head? = some '+' then text.toList.tail else text.toList
  let value := digits.foldl (fun n c => 10 * n + (c.toNat - '0'.toNat)) 0
  if digits ≠ [] ∧ digits.all Char.isDigit ∧ value < 2 ^ 64 then some value else none

/-! ## What the daemon serves -/

/-- The fields of a served row that the gateway reads. -/
structure EntryInfo where
  path : String
  kind : Records.EntryKind
  size : Nat
  mtimeNs : Int
  content : Option Hash
deriving DecidableEq, Repr

def entryInfo (row : EntryRow) : EntryInfo where
  path := row.path
  kind := row.kind
  size := row.size
  mtimeNs := row.mtimeNs
  content := row.content

def scanFillFactor : Nat := 8

def minScanBudget : Nat := 1024

/-- How many paths a page scans before it gives up. -/
def scanBudget (limit : Nat) : Nat :=
  max (limit * scanFillFactor) minScanBudget

/-- What the daemon sends: rows, and the path reached if the budget ran out. -/
structure Served where
  entries : List EntryInfo
  scanCursor : Option String
deriving DecidableEq, Repr

/-- The row served for a path, unless it has left the tree or the policy refuses it. -/
def serve (policy : VersionPolicy) (now : Int) (set : VersionSet) : Option EntryInfo :=
  if !set.exists? then none
  else (UnifiedTree.resolveSet set policy now).map entryInfo

/-- Sends the rows of a batch, and whether the limit is reached. -/
def sendBatch
    (policy : VersionPolicy) (now : Int) (limit : Nat) :
    List EntryInfo → List VersionSet → List EntryInfo × Bool
  | sent, [] => (sent, false)
  | sent, set :: batch =>
    match serve policy now set with
    | none => sendBatch policy now limit sent batch
    | some row =>
      let sent := sent ++ [row]
      if sent.length = limit then (sent, true)
      else sendBatch policy now limit sent batch

def sendBatches
    (tree : UnifiedTree) (policy : VersionPolicy) (stem : String) (limit : Nat)
    (sent : List EntryInfo) (scanned : Nat) (batch : List VersionSet) : Served :=
  match sendBatch policy tree.now limit sent batch with
  | (sent, true) => { entries := sent, scanCursor := none }
  | (sent, false) =>
    -- a short query means that the prefix is exhausted
    if batch.length < limit then { entries := sent, scanCursor := none }
    else
      match _hlast : batch.getLast? with
      | none => { entries := sent, scanCursor := none }
      | some last =>
        let scanned' := scanned + batch.length
        if _hbudget : scanBudget limit ≤ scanned' then
          { entries := sent, scanCursor := some last.path }
        else
          let batch' := tree.unifiedListing stem (some last.path) (some limit)
          if batch'.isEmpty then { entries := sent, scanCursor := none }
          else sendBatches tree policy stem limit sent scanned' batch'
termination_by scanBudget limit - scanned
decreasing_by
  have hne : batch ≠ [] := by
    rintro rfl
    simp at _hlast
  have hpos := List.length_pos_iff.mpr hne
  omega

variable (tree : UnifiedTree)

/-- The daemon's listing under a prefix, with a limit. -/
def list (policy : VersionPolicy) (stem : String)
    (startAfter : Option String) (limit : Nat) : Served :=
  sendBatches tree policy stem limit [] 0 (tree.unifiedListing stem startAfter (some limit))

/-! ## The page -/

/-- A bucket: whose version its reads take, and which keys are locks. -/
structure Bucket where
  name : String
  policy : VersionPolicy
  isLockKey : String → Bool

/-- The rows for a page, whether the daemon had more, and where its scan stopped. -/
def daemonList (policy : VersionPolicy) (stem : String)
    (startAfter : Option String) (wanted : Nat) : List EntryInfo × Bool × Option String :=
  let served := list tree policy stem startAfter (wanted + 1)
  if wanted < served.entries.length then (served.entries.take wanted, true, none)
  else (served.entries, served.scanCursor.isSome, served.scanCursor)

/-- An object of a listing.  Its content and time stand for the texts made of them. -/
structure ListedObject where
  key : String
  size : Nat
  content : Option Hash
  mtimeNs : Int
deriving DecidableEq, Repr

structure ListResult where
  bucket : String
  stem : String
  delimiter : Option String
  maxKeys : Nat
  contents : List ListedObject
  commonPrefixes : List String
  continuationToken : Option String
  nextContinuationToken : Option String
  isTruncated : Bool
deriving DecidableEq, Repr

def textBefore (needle : List Char) : List Char → Option (List Char)
  | [] => none
  | c :: text =>
    if needle <+: c :: text then some [] else (textBefore needle text).map (c :: ·)

def commonPrefixOf (stem : String) (delimiter : Option String) (key : String) : Option String :=
  delimiter.bind fun delimiter =>
    (textBefore delimiter.toList (key.toList.drop stem.toList.length)).map fun before =>
      stem ++ String.ofList before ++ delimiter

def listedObject (row : EntryInfo) : ListedObject where
  key := row.path
  size := row.size
  content := row.content
  mtimeNs := row.mtimeNs

/-- What the page holds so far, and the last path dealt with. -/
structure Filling where
  contents : List ListedObject
  commonPrefixes : List String
  cursor : Option String
deriving DecidableEq, Repr

/-- Fills a page with rows, and whether it was full before they ended. -/
def fill (bucket : Bucket) (stem : String) (delimiter : Option String) (maxKeys : Nat) :
    Filling → List EntryInfo → Filling × Bool
  | page, [] => (page, false)
  | page, row :: rows =>
    if !row.kind.hasContent || bucket.isLockKey row.path then
      fill bucket stem delimiter maxKeys { page with cursor := some row.path } rows
    else
      let full := maxKeys ≤ page.contents.length + page.commonPrefixes.length
      match commonPrefixOf stem delimiter row.path with
      | some common =>
        if common ∈ page.commonPrefixes then
          fill bucket stem delimiter maxKeys { page with cursor := some row.path } rows
        else if full then (page, true)
        else
          fill bucket stem delimiter maxKeys
            { page with
              commonPrefixes := page.commonPrefixes ++ [common]
              cursor := some row.path } rows
      | none =>
        if full then (page, true)
        else
          fill bucket stem delimiter maxKeys
            { page with
              contents := page.contents ++ [listedObject row]
              cursor := some row.path } rows

def defaultMaxKeys : Nat := 1000

def maxKeysOf (query : Query) : Nat :=
  max 1 (min (((param query "max-keys").bind parseUsize).getD defaultMaxKeys) defaultMaxKeys)

def delimiterOf (query : Query) : Option String :=
  (param query "delimiter").filter fun delimiter => delimiter ≠ ""

def listObjects (bucket : Bucket) (query : Query) : ListResult :=
  let stem := (param query "prefix").getD ""
  let delimiter := delimiterOf query
  let maxKeys := maxKeysOf query
  let token := (param query "continuation-token").filter fun token => token ≠ ""
  let startAfter := token.or (param query "start-after")
  let (listing, more, scanCursor) :=
    daemonList tree bucket.policy stem startAfter (maxKeys + 1)
  let (page, full) :=
    fill bucket stem delimiter maxKeys
      { contents := [], commonPrefixes := [], cursor := none } listing
  let isTruncated := full || more
  { bucket := bucket.name
    stem := stem
    delimiter := delimiter
    maxKeys := maxKeys
    contents := page.contents
    commonPrefixes := page.commonPrefixes
    continuationToken := token
    nextContinuationToken := if isTruncated then page.cursor.or scanCursor else none
    isTruncated := isTruncated }

end Synch.S3
