import Mathlib.Data.List.Sort
import Mathlib.Data.String.Basic
import Synch.Support.Text

/-!
# Reconciling a provider's records

What an external DNS provider holds below the apex against what the zone wants, as
a change set or a refusal.  Records are matched by name and value.  Deletions need
the ownership marker, and spare what the transparency gate withheld.
-/

namespace Synch.Provider

open Synch.Support

inductive Rtype where
  | txt
deriving DecidableEq, Repr

structure Record where
  name : String
  rtype : Rtype
  ttl : Int
  value : String
deriving DecidableEq, Repr

/-- A record as the provider holds it, under the provider's handle. -/
structure Existing where
  id : String
  record : Record
deriving DecidableEq, Repr

structure Changes where
  create : List Record := []
  replace : List (Existing × Record) := []
  delete : List Existing := []
deriving DecidableEq, Repr

inductive Conflict where
  | foreign (name value : String)
  | markerMismatch (name value : String)
deriving DecidableEq, Repr

/-! ## Names and values -/

def ownerLabel : String := "_synchronicity-owner"

def ownerValue : String := "heritage=synchronicity-cp,scope=apex"

/-- Whether a name's leftmost label is this one. -/
def startsWithLabel (name label : String) : Bool :=
  match splitOnce '.' name.toList with
  | some (first, _) => first == label.toList
  | none => name == label

/-- A later part of a proof. -/
def isPart (name : String) : Bool :=
  match splitOnce '.' name.toList with
  | some (first, _) => "_synchronicity-rekor-".toList.isPrefixOf first
  | none => false

def isProofName (name : String) : Bool :=
  startsWithLabel name "_synchronicity-rekor" || isPart name

/-- What a membership record is about: its owner, the member's label and key. -/
def memberIdentity (record : Record) : Option (String × List Char × List Char) :=
  match record.value.toList.splitOn ' ' with
  | version :: fields =>
    if version = "v=sync1".toList then
      let field (start : String) := fields.find? fun f => start.toList.isPrefixOf f
      match field "nk=" with
      | some nk => some (record.name, (field "id=").getD [], nk)
      | none => none
    else none
  | [] => none

def Record.Matches (a b : Record) : Prop :=
  a.name = b.name ∧ a.value = b.value

instance (a b : Record) : Decidable (a.Matches b) :=
  inferInstanceAs (Decidable (a.name = b.name ∧ a.value = b.value))

def priority (name : String) : Nat :=
  if startsWithLabel name ownerLabel then 0
  else if startsWithLabel name "_synchronicity-transparency" then 1
  else if isProofName name then 3
  else 2

def byPriority (a b : Record) : Ordering :=
  match compare (priority a.name) (priority b.name) with
  | .eq =>
    match compare a.name b.name with
    | .eq => compare a.value b.value
    | other => other
  | other => other

/-! ## The change set -/

/-- The names under which this deployment's marker is wanted. -/
def ourMarkers (desired : List Record) : List String :=
  (desired.filter fun d => d.value = ownerValue ∧ startsWithLabel d.name ownerLabel).map Record.name

def isOwned (desired : List Record) (existing : List Existing) (adopted : Bool) : Bool :=
  adopted || existing.any fun e => e.record.value = ownerValue ∧ e.record.name ∈ ourMarkers desired

/-- What the provider holds and the zone does not want. -/
def foreignOf (desired : List Record) (existing : List Existing) : List Existing :=
  existing.filter fun e => !desired.any fun d => e.record.Matches d

/-- Whether a foreign record is kept: a proof while none is wanted, a withheld
record, or the only one about a member whose record is withheld. -/
def isShielded (foreign : List Existing) (desired withheld : List Record) (e : Existing) : Bool :=
  let keepProofs := !desired.any fun d => isProofName d.name
  let byValue := withheld.any fun w => w.Matches e.record
  let byIdentity :=
    match memberIdentity e.record with
    | none => false
    | some id =>
      (withheld.any fun w => memberIdentity w = some id) &&
        (foreign.filter fun other => memberIdentity other.record = some id).length == 1
  keepProofs && isProofName e.record.name || byValue || byIdentity

def deletable (foreign : List Existing) (desired withheld : List Record) : List Existing :=
  foreign.filter fun e => !isShielded foreign desired withheld e

def creations (desired : List Record) (existing : List Existing) : List Record :=
  (desired.filter fun d => !existing.any fun e => e.record.Matches d).insertionSort
    fun a b => byPriority a b ≠ .gt

def replacements (desired : List Record) (existing : List Existing) : List (Existing × Record) :=
  existing.filterMap fun e =>
    (desired.find? fun d => e.record.Matches d ∧ d.ttl ≠ e.record.ttl).map fun d => (e, d)

/-- The change set, or the record that keeps the pass from touching anything. -/
def diffGated
    (desired : List Record) (existing : List Existing) (withheld : List Record)
    (adopted : Bool) : Except Conflict Changes :=
  let foreign := foreignOf desired existing
  let staleMarker := foreign.find? fun e => startsWithLabel e.record.name ownerLabel
  match isOwned desired existing adopted, staleMarker, foreign with
  | false, some marker, _ => .error (.markerMismatch marker.record.name marker.record.value)
  | false, none, first :: _ => .error (.foreign first.record.name first.record.value)
  | _, _, _ =>
    .ok {
      create := creations desired existing
      replace := replacements desired existing
      delete := deletable foreign desired withheld }

/-- What a record that stays becomes under a change set. -/
def Changes.updated (changes : Changes) (e : Existing) : Record :=
  match changes.replace.find? fun change => change.1 = e with
  | some (_, d) => d
  | none => e.record

/-- The records the provider holds once a change set is applied. -/
def applyTo (existing : List Existing) (changes : Changes) : List Record :=
  (existing.filter fun e => e ∉ changes.delete).map changes.updated ++ changes.create

variable {desired : List Record} {existing : List Existing} {withheld : List Record}
  {adopted : Bool}

/-- The change set of a pass that is not refused. -/
def changesFor
    (desired : List Record) (existing : List Existing) (withheld : List Record) : Changes where
  create := creations desired existing
  replace := replacements desired existing
  delete := deletable (foreignOf desired existing) desired withheld

/-- A pass is refused if the zone is not owned and holds a foreign record. -/
theorem diffGated_cases :
    ((isOwned desired existing adopted = true ∨ foreignOf desired existing = []) ∧
      diffGated desired existing withheld adopted = .ok (changesFor desired existing withheld)) ∨
    (isOwned desired existing adopted = false ∧ foreignOf desired existing ≠ [] ∧
      ∃ conflict, diffGated desired existing withheld adopted = .error conflict) := by
  unfold diffGated
  dsimp only
  cases howned : isOwned desired existing adopted with
  | true => exact .inl ⟨.inl rfl, rfl⟩
  | false =>
    cases hforeign : foreignOf desired existing with
    | nil => exact .inl ⟨.inr rfl, by simp [changesFor, hforeign]⟩
    | cons first rest =>
      refine .inr ⟨rfl, by simp, ?_⟩
      cases (first :: rest).find? fun e => startsWithLabel e.record.name ownerLabel with
      | none => exact ⟨_, rfl⟩
      | some marker => exact ⟨_, rfl⟩

theorem diffGated_of_allowed
    (hallowed : isOwned desired existing adopted = true ∨ foreignOf desired existing = []) :
    diffGated desired existing withheld adopted = .ok (changesFor desired existing withheld) := by
  obtain ⟨-, hok⟩ | ⟨howned, hforeign, -⟩ :=
    @diffGated_cases desired existing withheld adopted
  · exact hok
  · rw [howned] at hallowed
    exact (hallowed.elim Bool.false_ne_true hforeign).elim

theorem mem_foreignOf_iff {e : Existing} :
    e ∈ foreignOf desired existing ↔ e ∈ existing ∧ ∀ d ∈ desired, ¬e.record.Matches d := by
  simp [foreignOf]

theorem Record.Matches.eq_of_ttl {a b : Record} (h : a.Matches b) (httl : b.ttl = a.ttl) :
    a = b := by
  obtain ⟨name, ⟨⟩, ttl, value⟩ := a
  obtain ⟨name', ⟨⟩, ttl', value'⟩ := b
  obtain ⟨hname, hvalue⟩ := h
  cases hname
  cases hvalue
  cases httl
  rfl

end Synch.Provider
