import Synch.Support.Fallible
import Synch.Tree.Listing
import Synch.Writes.Tenant

/-!
# The condition of a cloud write

A condition starts as the text of an HTTP header.  The control plane reads it into a text and a
flag and sends them down the write tunnel, where an empty text travels as null.  The data plane
makes a condition of the engine out of them, and the engine evaluates that on its tree, under
the lock of tree writes and immediately before the change is published.
-/

namespace Synch.Writes

open Synch.Records Synch.Support Synch.Tree

def isBlank (c : Char) : Bool :=
  c ∈ [' ', '\t', '\n', '\r', Char.ofNat 0x0b, Char.ofNat 0x0c, Char.ofNat 0x85,
    Char.ofNat 0x200e, Char.ofNat 0x200f, Char.ofNat 0x2028, Char.ofNat 0x2029]

def trim (text : String) : String :=
  String.ofList ((text.toList.dropWhile isBlank).reverse.dropWhile isBlank).reverse

def unquote (value : String) : String :=
  if value.toList.head? = some '"' ∧ value.toList.getLast? = some '"' then
    String.ofList (value.toList.drop 1).dropLast
  else value

/-! ## The control plane -/

inductive Method where
  | put
  | delete
deriving DecidableEq, Repr

/-- A write as the control plane receives it. -/
structure Request where
  method : Method
  space : String
  path : String
  fromOrigin : String
  contentLength : Option Int
  ifMatch : Option String
  ifNoneMatch : Option String
deriving DecidableEq, Repr

/-- The header conditions a write carries, as the tunnel spells them. -/
def conditions (request : Request) : String × Bool :=
  (match request.ifMatch with
    | some value => unquote (trim value)
    | none => "",
   match request.ifNoneMatch with
    | some value => trim value == "*"
    | none => false)

def nullable (value : String) : Option String :=
  if value = "" then none else some value

/-- What a put or a delete says about its condition in the tunnel. -/
structure Frame where
  fromOrigin : Option String
  ifMatch : Option String
  ifNoneMatch : Bool
deriving DecidableEq, Repr

/-- A refused request: its status and its text. -/
abbrev Denial := Nat × String

/-- The checks of a put up to its frame, for a deployment that takes `cap` bytes. -/
def putFrame (cap : Int) (request : Request) : Except Denial Frame := do
  let size ← orRefuse request.contentLength
    (411, "length-required: a write carries a Content-Length")
  refuseIf (size < 0) (400, "invalid: a negative Content-Length")
  refuseIf (cap < size) (413, s!"too-large: this deployment takes writes of up to {cap} bytes")
  let (ifMatch, ifNoneMatch) := conditions request
  refuseIf (ifMatch ≠ "" ∧ ifNoneMatch)
    (400, "invalid: If-Match and If-None-Match cannot both be set")
  return ⟨nullable request.fromOrigin, nullable ifMatch, ifNoneMatch⟩

/-- A delete has no field for the second header. -/
def deleteFrame (request : Request) : Frame :=
  ⟨nullable request.fromOrigin, nullable (conditions request).1, false⟩

/-- A write's coded refusal, as an HTTP status. -/
def statusOfWrite (code : String) : Nat :=
  match code with
  | "not-found" | "not_found" => 404
  | "invalid" => 400
  | "precondition" => 412
  | "too-large" => 413
  | "over-budget" => 507
  | "unavailable" => 503
  | _ => 502

def Refusal.denial (refusal : Refusal) : Denial :=
  (statusOfWrite refusal.code, refusal.code ++ ": " ++ refusal.message)

/-! ## The data plane -/

def hexValue (c : Char) : Option Nat :=
  if '0' ≤ c ∧ c ≤ '9' then some (c.toNat - 48)
  else if 'a' ≤ c ∧ c ≤ 'f' then some (c.toNat - 87)
  else if 'A' ≤ c ∧ c ≤ 'F' then some (c.toNat - 55)
  else none

def decodeHex : List Char → Option (List UInt8)
  | [] => some []
  | [_] => none
  | high :: low :: rest => do
    let high ← hexValue high
    let low ← hexValue low
    let bytes ← decodeHex rest
    return UInt8.ofNat (16 * high + low) :: bytes

def parseHash (text : String) : Option Hash :=
  (decodeHex text.toList).bind fun bytes =>
    if h : bytes.length = 32 then some ⟨bytes, h⟩ else none

/-- The condition of the engine under which a write commits. -/
inductive PutCondition where
  | any
  | absent
  | root (root : Hash)
  | selected (origin : Option String) (root : Option Hash)
deriving DecidableEq, Repr

/-- How an origin is read from its text, with the reason a text is refused. -/
abbrev OriginParser := String → Except String String

variable (parseOrigin : OriginParser)

def pinnedOrigin : Option String → Except String (Option String)
  | some text => (reword (fun e => s!"from: {e}") (parseOrigin text)).map some
  | none => .ok none

def condition (frame : Frame) : Except String PutCondition := do
  let origin ← pinnedOrigin parseOrigin frame.fromOrigin
  match frame.ifMatch, frame.ifNoneMatch with
  | some _, true => .error "if_match and if_none_match cannot both be set"
  | some root, false =>
    let root ← orRefuse (parseHash root) s!"{root} is not an object root"
    return .selected origin (some root)
  | none, true => return .selected origin none
  | none, false => return .any

/-! ## The engine -/

inductive HostError where
  | notFound
  | notReadable (message : String)
  | unavailable (message : String)
  | denied (message : String)
  | conflict (message : String)
  | failed (message : String)
deriving DecidableEq, Repr

def HostError.refusal : HostError → Refusal
  | .notFound => ⟨"not-found", "no such path"⟩
  | .notReadable message => ⟨"invalid", message⟩
  | .denied message => ⟨"invalid", message⟩
  | .conflict message => ⟨"precondition", message⟩
  | .unavailable message => ⟨"unavailable", message⟩
  | .failed message => ⟨"internal", message⟩

/-- One space of a node's view, the origin it publishes as, and whether the space is a source
that has no directory. -/
structure View where
  tree : UnifiedTree
  own : String
  apiSource : Bool

namespace View

def entry (view : View) (path : String) : Option EntryRow :=
  view.tree.entries.find? fun row =>
    row.origin = view.own ∧ row.space = view.tree.space ∧ row.path = path

/-- This node's own entry, unless it is a tombstone. -/
def live (view : View) (path : String) : Option EntryRow :=
  (view.entry path).filter fun row => row.kind ≠ .tombstone

def liveRoot (view : View) (path : String) : Option Hash :=
  (view.live path).bind EntryRow.content

end View

def policyOf : Option String → VersionPolicy
  | some origin => .origin origin
  | none => .newest

variable (view : View)

/-- The root that the version selected for a path has, if one is live and has content. -/
def foundRoot (path : String) (origin : Option String) : Except HostError (Option Hash) :=
  match (view.tree.versions path).select (policyOf origin) view.tree.now with
  | .selected row => .ok (if row.kind = .tombstone then none else row.content)
  | .absent => .ok none
  | .divergent => .error (.failed "the path is divergent")

def expectSelected (path : String) (origin : Option String)
    (expected : Option Hash) : Except HostError Unit := do
  let space := view.tree.space
  let found ← foundRoot view path origin
  if found = expected then return ()
  else
    match found, expected with
    | some found, some _ =>
      let found := found.toHex
      throw (.conflict s!"{space}/{path} now selects {found}, not the expected version")
    | some found, none =>
      let found := found.toHex
      throw (.conflict s!"{space}/{path} now has a live version, {found}")
    | none, _ => throw (.conflict s!"{space}/{path} no longer has a live version")

structure Modes where
  create : Bool
  replace : Bool
  delete : Bool
deriving DecidableEq, Repr

/-- What the grant alone lets a write do: create where nothing is live, replace where
something is. -/
def expectMode (path : String) (modes : Modes) : Except HostError Unit := do
  let space := view.tree.space
  refuseIf ((view.live path).isSome ∧ !modes.replace)
    (.denied s!"{space}/{path} already has a live version here and the grant cannot replace")
  refuseIf ((view.live path).isNone ∧ !modes.create)
    (.denied s!"{space}/{path} has no live version here and the grant cannot create")

def evaluatePutCondition (path : String) (modes : Modes) :
    PutCondition → Except HostError Unit
  | .any => expectMode view path modes
  | .absent => do
    let space := view.tree.space
    refuseIf (!modes.create) (.denied s!"the grant for {space}/{path} carries no create mode")
    refuseIf ((view.live path).isSome) (.conflict s!"{space}/{path} now has a live version here")
  | .root expected => do
    let space := view.tree.space
    refuseIf (!modes.replace) (.denied s!"the grant for {space}/{path} carries no replace mode")
    refuseIf (view.liveRoot path ≠ some expected)
      (.conflict s!"{space}/{path} no longer has the expected version here")
  | .selected origin root => do
    expectMode view path modes
    expectSelected view path origin root

def evaluateDeleteCondition (path : String) :
    PutCondition → Except HostError Unit
  | .any => .ok ()
  | .absent =>
    let space := view.tree.space
    refuseIf ((view.live path).isSome) (.conflict s!"{space}/{path} now has a live version here")
  | .root expected =>
    let space := view.tree.space
    refuseIf (view.liveRoot path ≠ some expected)
      (.conflict s!"{space}/{path} no longer has the expected version here")
  | .selected origin root => expectSelected view path origin root

/-! ## A request from end to end -/

/-- What else a request meets on its way, in order: the control plane's slot, the session's
ceiling, the gates at open, the relay of the body, and on either side of the condition whether
the node can publish and whether the change lands. -/
structure Course where
  slot : Except Denial Unit
  accepted : Except Refusal Unit
  opened : Except Refusal Unit
  relayed : Except Refusal Unit
  publishable : Except HostError Unit
  landed : Except HostError Unit

def Course.smooth : Course where
  slot := .ok ()
  accepted := .ok ()
  opened := .ok ()
  relayed := .ok ()
  publishable := .ok ()
  landed := .ok ()

def refused {α : Type} (result : Except Refusal α) : Except Denial α :=
  reword Refusal.denial result

def hostRefused {α : Type} (result : Except HostError α) : Except Denial α :=
  refused (reword HostError.refusal result)

def stated (frame : Frame) : Except Denial PutCondition :=
  refused (reword (fun message => ⟨"invalid", message⟩) (condition parseOrigin frame))

/-- A put, whose writer is granted every mode. -/
def put (cap : Int) (course : Course) (view : View) (request : Request) : Except Denial Unit := do
  let frame ← putFrame cap request
  course.slot
  refused course.accepted
  let condition ← stated parseOrigin frame
  refused course.opened
  refused course.relayed
  hostRefused course.publishable
  hostRefused (evaluatePutCondition view request.path ⟨true, true, true⟩ condition)
  hostRefused course.landed

/-- The answer to a delete where this node has nothing to withdraw. -/
def nothingToWithdraw (before : View) (request : Request) :
    PutCondition → Except Denial Bool
  | .selected origin root => do
    let space := request.space
    let path := request.path
    let found ← hostRefused (foundRoot before request.path origin)
    refuseIf (found ≠ root) (Refusal.denial ⟨"precondition",
      s!"{space}/{path} does not select the expected version"⟩)
    return false
  | _ => .ok false

/-- A delete's guard: the condition it states, or that this node's version is the one read. -/
def guardOf (ownRoot : Hash) : PutCondition → PutCondition
  | .any => .root ownRoot
  | stated => stated

/-- The delete under the lock. -/
def deleteIf (course : Course) (view : View) (path : String) (guard : PutCondition) :
    Except HostError Unit := do
  course.publishable
  evaluateDeleteCondition view path guard
  course.landed

/-- A version that went before an unconditional delete took the lock is not an error. -/
def withdraw (course : Course) (view : View) (request : Request) (ownRoot : Hash)
    (condition : PutCondition) : Except Denial Bool :=
  match deleteIf course view request.path (guardOf ownRoot condition) with
  | .ok () => .ok true
  | .error (.conflict message) =>
    if condition = .any then .ok false
    else .error (HostError.conflict message).refusal.denial
  | .error e => .error e.refusal.denial

/-- A delete, and whether it withdrew this node's version.  That version is read before the
lock is taken, in the view `before`. -/
def delete (course : Course) (before view : View) (request : Request) : Except Denial Bool := do
  course.slot
  refused course.accepted
  let condition ← stated parseOrigin (deleteFrame request)
  refused course.opened
  match (if before.apiSource then before.liveRoot request.path else none) with
  | none => nothingToWithdraw before request condition
  | some ownRoot => withdraw course view request ownRoot condition

end Synch.Writes
