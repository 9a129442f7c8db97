import Mathlib.Data.String.Basic
import Synch.Membership.Keys
import Synch.Membership.Origin
import Synch.Support.Maps
import Synch.Support.Ranking
import Synch.Support.Text
import Synch.Transparency.Checkpoint

/-!
# Membership records

A membership domain's TXT answer lists one record for each member: white-space
separated fields, a version first.  A set is made of the records that parse.  A
key under two identities is ambiguous, and nothing is taken from its records.
-/

namespace Synch.Membership

open Std (TreeMap)
open Synch.Support
open Synch.Transparency (isWhiteSpace)

inductive RecordError where
  | notSync1
  | missingKey
  | badKey (why : String)
  | badLabel (label : String)
  | duplicate (field : String)
deriving DecidableEq, Repr

inductive OriginId (lib : KeyLib) where
  | key (key : NodeId lib)
  | named (domain id : String)
deriving DecidableEq

/-- One parsed record.  Without a label it binds its key alone. -/
structure MemberRecord (lib : KeyLib) where
  id : Option String
  nodeKey : NodeId lib
  relay : Option String
  addr : Option String
  apex : Option String
deriving DecidableEq

/-! ## One record -/

/-- What the loop over a record's fields has read. -/
structure Fields (lib : KeyLib) where
  id : Option String := none
  nodeKey : Option (NodeId lib) := none
  relay : Option String := none
  addr : Option String := none
  apex : Option String := none

/-- Reads one field.  Fields without a value and unknown ones are passed over, and
the fields the set turns on may stand once. -/
def Fields.read {lib : KeyLib} (fields : Fields lib) (field : List Char) :
    Except RecordError (Fields lib) :=
  match splitOnce '=' field with
  | none => .ok fields
  | some (name, chars) =>
    let value := String.ofList chars
    if name = "id".toList then do
      refuseIf (fields.id.isSome = true) (.duplicate "id")
      let label ← reword (fun _ => .badLabel value) (normalizeLabel value)
      return { fields with id := some label }
    else if name = "nk".toList then do
      refuseIf (fields.nodeKey.isSome = true) (.duplicate "nk")
      let key ← reword (fun why => .badKey s!"{value}: {why}") (NodeId.fromZ32 lib value)
      return { fields with nodeKey := some key }
    else if name = "relay".toList then .ok { fields with relay := some value }
    else if name = "addr".toList then .ok { fields with addr := some value }
    else if name = "apex".toList then do
      refuseIf (fields.apex.isSome = true) (.duplicate "apex")
      return { fields with apex := some (lower value) }
    else .ok fields

/-- The record of the fields read, which must name a key. -/
def Fields.toRecord {lib : KeyLib} (fields : Fields lib) :
    Except RecordError (MemberRecord lib) := do
  let nodeKey ← orRefuse fields.nodeKey .missingKey
  return {
    id := fields.id
    nodeKey
    relay := fields.relay
    addr := fields.addr
    apex := fields.apex }

def versionField : List Char :=
  "v=sync1".toList

def parseRecord (lib : KeyLib) (text : String) : Except RecordError (MemberRecord lib) :=
  match words isWhiteSpace text.toList with
  | [] => .error .notSync1
  | first :: fields =>
    if first = versionField then do
      let read ← fields.foldlM Fields.read {}
      read.toRecord
    else .error .notSync1

variable {lib : KeyLib}

/-- A label once read is normalized. -/
def Fields.Normalized (fields : Fields lib) : Prop :=
  ∀ label, fields.id = some label → normalizeLabel label = .ok label

theorem Fields.normalized_read {fields fields' : Fields lib} {field : List Char}
    (hfields : fields.Normalized) (h : fields.read field = .ok fields') : fields'.Normalized := by
  unfold Fields.read at h
  split at h
  · cases h
    exact hfields
  · split_ifs at h
    · obtain ⟨_, -, h⟩ := bind_eq_ok_iff.mp h
      obtain ⟨label, hlabel, h⟩ := bind_eq_ok_iff.mp h
      cases h
      rintro _ ⟨⟩
      exact normalizeLabel_of_normalized (reword_eq_ok_iff.mp hlabel)
    · obtain ⟨_, -, h⟩ := bind_eq_ok_iff.mp h
      obtain ⟨_, -, h⟩ := bind_eq_ok_iff.mp h
      cases h
      exact hfields
    · cases h
      exact hfields
    · cases h
      exact hfields
    · obtain ⟨_, -, h⟩ := bind_eq_ok_iff.mp h
      cases h
      exact hfields
    · cases h
      exact hfields

theorem parseRecord_eq_ok {text : String} {record : MemberRecord lib}
    (h : parseRecord lib text = .ok record) :
    ∃ fields read, words isWhiteSpace text.toList = versionField :: fields ∧
      fields.foldlM Fields.read ({} : Fields lib) = .ok read ∧ read.toRecord = .ok record := by
  unfold parseRecord at h
  split at h
  · cases h
  · rename_i first fields hwords
    split_ifs at h with hversion
    obtain ⟨read, hread, hrecord⟩ := bind_eq_ok_iff.mp h
    exact ⟨fields, read, by rw [hwords, hversion], hread, hrecord⟩

theorem normalizeLabel_of_parseRecord {text label : String} {record : MemberRecord lib}
    (h : parseRecord lib text = .ok record) (hlabel : record.id = some label) :
    normalizeLabel label = .ok label := by
  obtain ⟨fields, read, -, hread, hrecord⟩ := parseRecord_eq_ok h
  have hnormalized : read.Normalized :=
    foldlM_invariant Fields.Normalized
      (fun _ _ _ _ hfields hstep => Fields.normalized_read hfields hstep)
      (by rintro _ ⟨⟩) hread
  obtain ⟨key, -, hdone⟩ := bind_eq_ok_iff.mp hrecord
  cases hdone
  exact hnormalized label hlabel

/-! ## A set of records -/

inductive DialHint where
  | relay (text : String)
  | addr (text : String)
deriving DecidableEq, Repr

structure MemberSet (lib : KeyLib) where
  domain : String
  bindings : List (OriginId lib × NodeId lib)
  ambiguousKeys : List (NodeId lib)
  rejected : List (String × RecordError)
  hints : TreeMap (List UInt8) (List DialHint)

namespace MemberRecord

/-- The origin a record binds its key to, within a domain. -/
def origin (record : MemberRecord lib) (domain : String) : Except OriginError (OriginId lib) :=
  match record.id with
  | some id => do
    let (domain, id) ← namedOrigin id domain
    return .named domain id
  | none => .ok (.key record.nodeKey)

def dialHints (record : MemberRecord lib) : List DialHint :=
  [record.relay.map .relay, record.addr.map .addr].reduceOption

end MemberRecord

def parsedRecords (lib : KeyLib) (records : List String) : List (MemberRecord lib) :=
  records.filterMap fun text => (parseRecord lib text).toOption

/-- The records that do not, each with its reason. -/
def rejectedRecords (lib : KeyLib) (records : List String) : List (String × RecordError) :=
  records.filterMap fun text =>
    match parseRecord lib text with
    | .ok _ => none
    | .error reason => some (text, reason)

/-- The identities each key was seen under. -/
abbrev Identities := TreeMap (List UInt8) (List (Option String))

def Identities.note (identities : Identities) (record : MemberRecord lib) : Identities :=
  identities.alter record.nodeKey.bytes fun seen => some ((seen.getD []).insert record.id)

def identitiesOf (parsed : List (MemberRecord lib)) : Identities :=
  parsed.foldl Identities.note ∅

/-- The keys under more than one identity, in their order. -/
def Identities.ambiguous (identities : Identities) : List (List UInt8) :=
  (identities.toList.filter fun entry => 1 < entry.2.length).map Prod.fst

/-- What the loop over the records has gathered. -/
structure Harvest (lib : KeyLib) where
  bindings : List (OriginId lib × NodeId lib) := []
  hints : TreeMap (List UInt8) (List DialHint) := ∅

def pushHint
    (key : List UInt8) (hints : TreeMap (List UInt8) (List DialHint)) (hint : DialHint) :
    TreeMap (List UInt8) (List DialHint) :=
  hints.alter key fun before => some (before.getD [] ++ [hint])

def Harvest.add (harvest : Harvest lib) (record : MemberRecord lib) (origin : OriginId lib) :
    Harvest lib where
  bindings :=
    if (origin, record.nodeKey) ∈ harvest.bindings then harvest.bindings
    else harvest.bindings ++ [(origin, record.nodeKey)]
  hints := record.dialHints.foldl (pushHint record.nodeKey.bytes) harvest.hints

instance lawfulBEqKey : LawfulBEq (List UInt8) := inferInstance

/-- Takes a record in.  Nothing is taken from a record whose key is ambiguous. -/
def Harvest.take
    (domain : String) (ambiguous : List (List UInt8)) (harvest : Harvest lib)
    (record : MemberRecord lib) : Except OriginError (Harvest lib) :=
  if record.nodeKey.bytes ∈ ambiguous then .ok harvest
  else do
    let origin ← record.origin domain
    return harvest.add record origin

/-- The order of bindings: by origin, keys before names, then by key. -/
def bindingKey :
    OriginId lib × NodeId lib → ℕ ×ₗ List ℕ ×ₗ String ×ₗ String ×ₗ List ℕ
  | (.key origin, key) =>
    toLex (0, toLex (origin.bytes.map UInt8.toNat,
      toLex ("", toLex ("", key.bytes.map UInt8.toNat))))
  | (.named domain id, key) =>
    toLex (1, toLex ([], toLex (domain, toLex (id, key.bytes.map UInt8.toNat))))

def MemberSet.fromRecords (lib : KeyLib) (domain : String) (records : List String) :
    Except OriginError (MemberSet lib) := do
  let domain ← normalizeDomain domain
  let parsed := parsedRecords lib records
  let ambiguous := (identitiesOf parsed).ambiguous
  let harvest ← parsed.foldlM (Harvest.take domain ambiguous) {}
  return {
    domain
    bindings := sortBy bindingKey harvest.bindings
    ambiguousKeys := ambiguous.filterMap (NodeId.fromBytes lib)
    rejected := rejectedRecords lib records
    hints := harvest.hints }

def MemberSet.hintsFor (set : MemberSet lib) (key : NodeId lib) : List DialHint :=
  set.hints[key.bytes]?.getD []

end Synch.Membership
