import Mathlib.Algebra.Group.Int.Defs
import Mathlib.Algebra.GroupWithZero.Nat
import Synch.Hash
import Synch.Support.Ranking

/-!
# The rows of a multipart upload

An upload is open, being completed, or completed.  A completion latches it and reads
its parts in one transaction; the latch carries the time it was taken but not who took
it.  A refused completion opens the upload again, and a finished one records the answer
and drops the parts.
-/

namespace Synch.Uploads

open Synch.Support

/-- The smallest a part may be when it is not the last one. -/
def minPartSize : Nat := 5 * 1024 * 1024

inductive UploadState where
  | opened
  | completing
  | completed
deriving DecidableEq, Repr

structure UploadPart where
  number : Nat
  file : String
  size : Nat
  root : Hash
  createdNs : Int
deriving DecidableEq, Repr

structure Upload where
  space : String
  path : String
  principal : Option String
  createdNs : Int
  state : UploadState
  etag : Option Hash
  size : Option Nat
  latchedNs : Option Int
  completedNs : Option Int
deriving DecidableEq, Repr

/-- The rows that one upload id has. -/
structure Rows where
  upload : Option Upload
  parts : List UploadPart
deriving DecidableEq, Repr

/-- What latching an upload answers. -/
inductive CompleteStart where
  | ready (space path : String) (parts : List UploadPart)
  | alreadyCompleted (etag : Hash) (size : Nat)
deriving DecidableEq, Repr

/-- The difference of two clock readings, held to 64 bits. -/
def saturatingSub (a b : Int) : Int :=
  max (-2 ^ 63) (min (2 ^ 63 - 1) (a - b))

def createUpload (space path : String) (principal : Option String) (nowNs : Int) : Rows where
  upload := some
    { space := space
      path := path
      principal := principal
      createdNs := nowNs
      state := .opened
      etag := none
      size := none
      latchedNs := none
      completedNs := none }
  parts := []

/-- Records a part and answers with the file it supersedes, unless the upload is no longer
open. -/
def recordPart (id : String) (rows : Rows) (part : UploadPart) :
    Except String (Rows × Option String) :=
  match rows.upload with
  | none => .error s!"no upload {id}"
  | some upload =>
    if upload.state = .opened then
      let superseded :=
        (rows.parts.find? fun other => other.number = part.number).map UploadPart.file
      let others := rows.parts.filter fun other => other.number ≠ part.number
      .ok ({ rows with parts := others ++ [part] }, superseded.filter fun file => file ≠ part.file)
    else .error s!"upload {id} is no longer accepting parts"

variable (rows : Rows)

def uploadParts : List UploadPart :=
  sortBy UploadPart.number rows.parts

/-- Latches an upload and reads its parts.  A latch that is old enough is taken over. -/
def beginComplete (id : String) (rows : Rows) (nowNs staleAfterNs : Int) :
    Except String (Rows × CompleteStart) :=
  match rows.upload with
  | none => .error s!"no upload {id}"
  | some upload =>
    let latched :=
      ({ rows with
          upload := some { upload with state := .completing, latchedNs := some nowNs } },
        CompleteStart.ready upload.space upload.path (uploadParts rows))
    match upload.state with
    | .completed =>
      match upload.etag with
      | none => .error "a completed upload with no root"
      | some etag => .ok (rows, .alreadyCompleted etag (upload.size.getD 0))
    | .completing =>
      if upload.latchedNs.any fun latchedNs =>
          saturatingSub nowNs latchedNs < staleAfterNs then
        .error s!"upload {id} is already being completed"
      else .ok latched
    | .opened => .ok latched

def reopenUpload : Rows :=
  { rows with
    upload := rows.upload.map fun upload =>
      if upload.state = .completing then { upload with state := .opened, latchedNs := none }
      else upload }

/-- Records the answer and drops the parts. -/
def finishComplete (etag : Hash) (size : Nat) (nowNs : Int) : Rows where
  upload := rows.upload.map fun upload =>
    { upload with
      state := .completed
      etag := some etag
      size := some size
      completedNs := some nowNs
      latchedNs := none }
  parts := []

/-- Drops an upload, and answers whether there was one.  A completed one stays. -/
def abortUpload (id : String) (rows : Rows) : Except String (Rows × Bool) :=
  match rows.upload with
  | none => .ok (rows, false)
  | some upload =>
    match upload.state with
    | .completing => .error s!"upload {id} is being completed and cannot be aborted"
    | .completed => .ok (rows, true)
    | .opened => .ok ({ upload := none, parts := [] }, true)

/-- Drops an upload whose time is over, unless it is being completed. -/
def expireUpload : Rows × Bool :=
  match rows.upload with
  | none => (rows, false)
  | some upload =>
    if upload.state = .completing then (rows, false)
    else ({ upload := none, parts := [] }, true)

/-- Opens every interrupted completion again, at startup. -/
def reopenInterruptedUploads : Rows :=
  reopenUpload rows

/-- The uploads a sweep takes up: those that were created, or completed, before the
cutoff. -/
def isBefore (upload : Upload) (cutoffNs : Int) : Bool :=
  upload.completedNs.getD upload.createdNs < cutoffNs

/-- The numbers ascend, from above the previous one. -/
def checkOrder : Nat → List (Nat × Option Hash) → Except String Unit
  | _, [] => .ok ()
  | previous, (number, _) :: wanted =>
    if number ≤ previous then .error s!"part {number} is out of order"
    else checkOrder number wanted

/-- The parts named, each with the root expected of it. -/
def findParts (available : List UploadPart) :
    List (Nat × Option Hash) → Except String (List UploadPart)
  | [] => .ok []
  | (number, expected) :: wanted =>
    match available.find? fun part => part.number = number with
    | none => .error s!"part {number} was never uploaded"
    | some part =>
      if expected.any fun root => part.root ≠ root then
        .error s!"part {number} does not have the root the completion named"
      else (findParts available wanted).map (part :: ·)

/-- Every part but the last reaches the minimum. -/
def checkSizes : List UploadPart → Except String Unit
  | [] | [_] => .ok ()
  | part :: parts =>
    if part.size < minPartSize then
      let (number, size, minimum) := (part.number, part.size, minPartSize)
      .error (s!"part {number} is {size} byte(s), under the {minimum}-byte minimum " ++
        "for a part that is not the last")
    else checkSizes parts

/-- The parts a completion named, in the order required. -/
def chooseParts (wanted : List (Nat × Option Hash)) (available : List UploadPart) :
    Except String (List UploadPart) := do
  if wanted.isEmpty then throw "a completion names no parts"
  checkOrder 0 wanted
  let chosen ← findParts available wanted
  checkSizes chosen
  pure chosen

end Synch.Uploads
