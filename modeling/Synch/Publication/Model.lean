import Synch.Records.BlobAd
import Synch.Records.Keys
import Synch.Support.View

/-!
# The publication transaction

A batch of staged changes becomes one new root of this node's trie.  In one
transaction the batch is written into the trie, the source holds its live files
need are taken, the entries of the new tree are materialized, the holds nothing
names any more are released, and the advertisements are derived from the final
view.

The trie enters as the map it stores and the database as its tables, restricted
to this node's own origin.
-/

namespace Synch.Publication

open Synch.Records Synch.Support
open Std (TreeMap)

abbrev Trie := TreeMap (List UInt8) (List UInt8)

/-- The crates and settings a publication relies on. -/
structure Services where
  postcard : Postcard
  unicode : Unicode
  remoteUploadParts : Bool

structure Services.Documented (services : Services) : Prop where
  postcard : services.postcard.Documented
  unicode : services.unicode.Documented

inductive EngineError where
  | invalid (message : String)
  | record
  | store (message : String)
  | materialize (message : String)
deriving DecidableEq, Repr

inductive BlobIntent where
  | refresh
  | withdraw
deriving DecidableEq, Repr

/-- One intent waiting for the next publication.  An ordinary record stays out
of the publisher's `b:` namespace. -/
inductive StagedChange where
  | record (key : List UInt8) (value : Option (List UInt8))
      (ordinary : [98, 58].isPrefixOf key = false)
  | blob (root : Hash) (intent : BlobIntent)
deriving DecidableEq

namespace StagedChange

def ofRecord (key : List UInt8) (value : Option (List UInt8)) : Except EngineError StagedChange :=
  if h : [98, 58].isPrefixOf key = true then
    .error (.invalid "the b: namespace is publisher-owned; use a blob lifecycle intent")
  else .ok (.record key value (Bool.eq_false_iff.mpr h))

def key : StagedChange → List UInt8
  | record key _ _ => key
  | blob root _ => blobKey root

end StagedChange

/-! ## Tables -/

/-- One row of the entries view. -/
structure EntryRow where
  space : String
  path : String
  columns : Fields
deriving DecidableEq

/-- The row has this value in a column. -/
def EntryRow.has (row : EntryRow) (column : String) (value : Cell) : Bool :=
  row.columns.lookup column == some value

def rootCell (root : Hash) : Cell :=
  .blob (arrayOf root.bytes)

structure BlobRow where
  root : Hash
  size : UInt64
  complete : Bool
  durable : Bool
  advertisedSpans : List (UInt64 × UInt64)
deriving DecidableEq

def BlobRow.toAd (row : BlobRow) : BlobAd where
  v := recordVersion
  size := row.size
  spans := row.advertisedSpans

/-- One holder's claim to an object. -/
structure Pin where
  root : Hash
  holder : String
  releaseAfter : Option Int64
deriving DecidableEq

def sourceHolder (space : String) : String :=
  "source:" ++ space

structure Db where
  trie : Trie
  entries : List EntryRow
  sources : List String
  blobs : List BlobRow
  pins : List Pin

namespace Db

variable (db : Db)

def blob (root : Hash) : Option BlobRow :=
  db.blobs.find? fun row => row.root = root

def noSourceRole (space : String) : EngineError :=
  .store s!"cannot publish into {space}: this node has no source role"

def sizeMismatch (space root : String) (size recorded : UInt64) : EngineError :=
  .store s!"source {space} tried to publish {root} as {size} bytes, but durable storage records {recorded}"

def notPresent (space root : String) : EngineError :=
  .store s!"source {space} cannot publish {root}: complete durable content is not present"

/-- Verifies durable possession and installs the source hold. -/
def holdSourceBlob (space : String) (root : Hash) (size : UInt64) : Except EngineError Db :=
  if !db.sources.contains space then .error (noSourceRole space)
  else
    match db.blob root with
    | none => .error (notPresent space root.toHex)
    | some row =>
      if !row.durable then .error (notPresent space root.toHex)
      else if row.size ≠ size then .error (sizeMismatch space root.toHex size row.size)
      else
        let holder := sourceHolder space
        let others := db.pins.filter fun pin => ¬(pin.root = root ∧ pin.holder = holder)
        .ok { db with pins := ⟨root, holder, none⟩ :: others }

/-- Some entry of the space names the object. -/
def namesContent (space : String) (root : Hash) : Bool :=
  db.entries.any fun row => row.space == space && row.has "content" (rootCell root)

/-- Releases source holds no entry in the space names. -/
def reconcileSourceHolds (space : String) : Db :=
  { db with
    pins := db.pins.filter fun pin =>
      pin.holder ≠ sourceHolder space ∨ db.namesContent space pin.root }

/-- The durable size of an object some entry of a configured source names with
that size. -/
def liveSourceBlobSize (root : Hash) : Option UInt64 :=
  match db.blob root with
  | none => none
  | some row =>
    if row.durable && db.entries.any (fun entry =>
        entry.has "content" (rootCell root) && db.sources.contains entry.space &&
          entry.has "size" (.integer row.size.toInt64)) then
      some row.size
    else none

/-! ## Materialization -/

/-- The entry a key names: the core's parse and its test for composition. -/
def entryOf (services : Services) (key : List UInt8) : Option (String × String) :=
  if key[0]? = some 102 then
    match Core.fileKey (arrayOf key) with
    | none => none
    | some (space, path) => if services.unicode.isNfc path then some (space, path) else none
  else none

def entryRow (name : String × String) (bytes : List UInt8) : Except EngineError EntryRow :=
  match Records.file (arrayOf bytes, 0) with
  | .error reason => .error (.materialize ("f: record: " ++ reason))
  | .ok (file, _) => .ok ⟨name.1, name.2, file.fields⟩

def entriesView (services : Services) :
    Derivation (List UInt8) (List UInt8) (String × String) EntryRow EngineError where
  named := entryOf services
  row := entryRow
  nameOf row := (row.space, row.path)

def materializeDiff (services : Services) (old new : Trie) : Except EngineError Db :=
  ((entriesView services).refresh db.entries (differences old new)).map fun rows =>
    { db with entries := rows }

end Db

/-! ## The transaction -/

/-- What the loop over the staged changes has gathered. -/
structure Batch where
  db : Db
  root : Trie
  changedSpaces : List String
  sourceRoots : List Hash
  blobChanges : List (Hash × BlobIntent)

namespace Batch

variable (services : Services)

/-- A live own entry takes the source hold of its content. -/
def noteEntry (batch : Batch) (space : String) (bytes : List UInt8) : Except EngineError Batch :=
  match FileEntry.decodeEntry services.postcard bytes with
  | none => .error .record
  | some entry =>
    if entry.kind.hasContent then
      match entry.content with
      | none => .error (.invalid s!"live own entry in {space} has no content root")
      | some content =>
        (batch.db.holdSourceBlob space content entry.size).map fun db =>
          { batch with db := db, sourceRoots := content :: batch.sourceRoots }
    else .ok batch

/-- What a record does before it is written into the trie. -/
def noteRecord (batch : Batch) (key : List UInt8)
    (value : Option (List UInt8)) : Except EngineError Batch :=
  match parseFileKey services.unicode key with
  | .error _ => .ok batch
  | .ok (space, _) =>
    let batch := { batch with changedSpaces := space :: batch.changedSpaces }
    match value with
    | none => .ok batch
    | some bytes => batch.noteEntry services space bytes

def writeTrie (root : Trie) (key : List UInt8) : Option (List UInt8) → Trie
  | some value => root.insert key value
  | none => root.erase key

def applyChange (batch : Batch) :
    StagedChange → Except EngineError Batch
  | .blob root intent =>
    .ok { batch with
      blobChanges := batch.blobChanges.filter (fun change => change.1 ≠ root) ++ [(root, intent)] }
  | .record key value _ =>
    (batch.noteRecord services key value).map fun batch =>
      { batch with root := writeTrie batch.root key value }

end Batch

variable (services : Services)

/-- A source root gets a complete advertisement if the final view names it. -/
def advertiseSource (db : Db) (root : Trie) (content : Hash) : Trie :=
  match db.liveSourceBlobSize content with
  | none => root
  | some size =>
    root.insert (blobKey content) ((BlobAd.complete size).encode services.postcard)

/-- The advertisement a blob intent leads to, if any. -/
def intendedAd (db : Db) (content : Hash) (intent : BlobIntent) : Option BlobAd :=
  match db.liveSourceBlobSize content with
  | some size => some (BlobAd.complete size)
  | none =>
    if intent = .withdraw then none
    else
      (db.blob content).bind fun row =>
        if !services.remoteUploadParts || !row.complete || row.durable then some row.toAd
        else none

def advertiseBlob (db : Db) (root : Trie) (change : Hash × BlobIntent) : Trie :=
  match intendedAd services db change.1 change.2 with
  | some ad => root.insert (blobKey change.1) (ad.encode services.postcard)
  | none => root.erase (blobKey change.1)

/-- The new database, and whether a new root was published. -/
def publishChanges (db : Db) (staged : List StagedChange) : Except EngineError (Db × Bool) := do
  let oldRoot := db.trie
  let batch ← staged.foldlM (Batch.applyChange services) ⟨db, oldRoot, [], [], []⟩
  let proposedRoot := batch.root
  let viewed ← batch.db.materializeDiff services oldRoot proposedRoot
  let settled := batch.changedSpaces.foldl Db.reconcileSourceHolds viewed
  let sourced := batch.sourceRoots.foldl (advertiseSource services settled) proposedRoot
  let root := batch.blobChanges.foldl (advertiseBlob services settled) sourced
  let final ←
    if (differences proposedRoot root).isEmpty then pure settled
    else settled.materializeDiff services proposedRoot root
  return ({ final with trie := root }, !(differences oldRoot root).isEmpty)

def publish (db : Db) (staged : List StagedChange) : Except EngineError (Db × Bool) :=
  if staged.isEmpty then .ok (db, false) else publishChanges services db staged

end Synch.Publication
