import Mathlib.Data.List.Infix
import Mathlib.Algebra.GroupWithZero.Nat

/-!
# DNS names

Names are compared without regard to the case of ASCII letters, and a zone
contains the names its labels end.  Reading and writing the text of a name
belongs to the DNS library and is a parameter.
-/

namespace Synch.Transparency

open List

abbrev Label := List UInt8

/-- The octets of a name on the wire, the root's included. -/
def encodedLength (labels : List Label) : Nat :=
  (labels.map fun label => label.length + 1).sum + 1

/-- An absolute name: its labels, the one furthest from the root first. -/
structure Name where
  labels : List Label
  label_length : ∀ label ∈ labels, 0 < label.length ∧ label.length ≤ 63
  encoded_length : encodedLength labels ≤ 255
deriving DecidableEq

def lowerByte (byte : UInt8) : UInt8 :=
  if 0x41 ≤ byte ∧ byte ≤ 0x5a then byte + 0x20 else byte

theorem lowerByte_lowerByte (byte : UInt8) : lowerByte (lowerByte byte) = lowerByte byte := by
  unfold lowerByte
  by_cases hupper : 0x41 ≤ byte ∧ byte ≤ 0x5a
  · rw [if_pos hupper, if_neg]
    simp only [UInt8.le_iff_toNat_le, UInt8.toNat_add] at hupper ⊢
    change 65 ≤ byte.toNat ∧ byte.toNat ≤ 90 at hupper
    change ¬(65 ≤ (byte.toNat + 32) % 256 ∧ (byte.toNat + 32) % 256 ≤ 90)
    omega
  · rw [if_neg hupper, if_neg hupper]

def lowerLabel (label : Label) : Label :=
  label.map lowerByte

theorem lowerLabel_lowerLabel (label : Label) :
    lowerLabel (lowerLabel label) = lowerLabel label := by
  simp [lowerLabel, lowerByte_lowerByte]

namespace Name

/-- The labels as they are compared. -/
def key (name : Name) : List Label :=
  name.labels.map lowerLabel

theorem encodedLength_map_lower (labels : List Label) :
    encodedLength (labels.map lowerLabel) = encodedLength labels := by
  simp [encodedLength, lowerLabel, Function.comp_def]

def toLowercase (name : Name) : Name where
  labels := name.key
  label_length := by
    intro label hlabel
    obtain ⟨upper, hupper, rfl⟩ := List.mem_map.mp hlabel
    rw [lowerLabel, List.length_map]
    exact name.label_length upper hupper
  encoded_length := by
    rw [key, encodedLength_map_lower]
    exact name.encoded_length

@[simp] theorem key_toLowercase (name : Name) : name.toLowercase.key = name.key := by
  simp [key, toLowercase, lowerLabel_lowerLabel]

/-- Equality of names. -/
def Same (a b : Name) : Prop :=
  a.key = b.key

/-- Whether a name is the zone's own or lies below it. -/
def ZoneOf (zone name : Name) : Prop :=
  zone.key <:+ name.key

instance (a b : Name) : Decidable (a.Same b) :=
  inferInstanceAs (Decidable (_ = _))

instance (zone name : Name) : Decidable (zone.ZoneOf name) :=
  inferInstanceAs (Decidable (_ <:+ _))

theorem ZoneOf.refl (name : Name) : name.ZoneOf name :=
  suffix_refl _

theorem ZoneOf.trans {a b c : Name} (hab : a.ZoneOf b) (hbc : b.ZoneOf c) : a.ZoneOf c :=
  List.IsSuffix.trans hab hbc

/-- Two zones of one name lie on one delegation path. -/
theorem ZoneOf.comparable {a b c : Name} (ha : a.ZoneOf c) (hb : b.ZoneOf c) :
    a.ZoneOf b ∨ b.ZoneOf a :=
  suffix_or_suffix_of_suffix ha hb

theorem Same.zoneOf {a b : Name} (h : a.Same b) : a.ZoneOf b := by
  rw [ZoneOf, h]

theorem Same.symm {a b : Name} (h : a.Same b) : b.Same a :=
  Eq.symm h

/-- Above a name without being it. -/
def ProperZoneOf (zone name : Name) : Prop :=
  zone.ZoneOf name ∧ ¬zone.Same name

instance (zone name : Name) : Decidable (zone.ProperZoneOf name) :=
  inferInstanceAs (Decidable (_ ∧ _))

/-! ## Cutting labels off -/

theorem encodedLength_drop_le (labels : List Label) (n : Nat) :
    encodedLength (labels.drop n) ≤ encodedLength labels := by
  induction labels generalizing n with
  | nil => simp
  | cons label labels ih =>
    cases n with
    | zero => rfl
    | succ n =>
      have hrest := ih n
      simp only [encodedLength, drop_succ_cons, map_cons, sum_cons] at *
      omega

/-- The name above, so many labels up. -/
def above (name : Name) (n : Nat) : Name where
  labels := name.labels.drop n
  label_length := fun label hlabel => name.label_length label (List.mem_of_mem_drop hlabel)
  encoded_length := (encodedLength_drop_le name.labels n).trans name.encoded_length

theorem key_above (name : Name) (n : Nat) : (name.above n).key = name.key.drop n := by
  rw [key, key, above, map_drop]

/-- A name one label below another. -/
def ChildOf (child parent : Name) : Prop :=
  ∃ label, child.key = label :: parent.key

theorem ChildOf.zoneOf {child parent : Name} (h : child.ChildOf parent) : parent.ZoneOf child := by
  obtain ⟨label, hkey⟩ := h
  rw [ZoneOf, hkey]
  exact suffix_cons label parent.key

/-- On the way down from a zone to a name below it there is a child of the zone. -/
theorem ProperZoneOf.exists_child {zone name : Name} (h : zone.ProperZoneOf name) :
    ∃ child : Name, child.ChildOf zone ∧ child.ZoneOf name := by
  obtain ⟨⟨before, hbefore⟩, hother⟩ := h
  obtain hnil | ⟨front, label, rfl⟩ := eq_nil_or_concat before
  · rw [hnil] at hbefore
    exact absurd hbefore hother
  refine ⟨name.above front.length, ⟨label, ?_⟩, ?_⟩
  · rw [key_above, ← hbefore]
    simp
  · rw [ZoneOf, key_above]
    exact drop_suffix _ _

theorem encodedLength_key (name : Name) : encodedLength name.key = encodedLength name.labels :=
  encodedLength_map_lower name.labels

theorem ChildOf.encodedLength_lt {child parent : Name} (h : child.ChildOf parent) :
    encodedLength parent.labels < encodedLength child.labels := by
  obtain ⟨label, hkey⟩ := h
  rw [← encodedLength_key, ← encodedLength_key, hkey]
  simp only [encodedLength, map_cons, sum_cons]
  omega

end Name

/-- Why a carried chain does not establish that a key was authorized. -/
inductive ChainError where
  | absent
  | malformed (why : String)
  | structure (why : String)
  | signature (why : String)
  | anchor (why : String)
deriving DecidableEq, Repr

/-- The presentation format of names, as the DNS library reads and writes it. -/
structure NameText where
  fromUtf8 : String → Except String Name
  toText : Name → String

/-- Parse a name the way every comparison must. -/
def parseName (names : NameText) (text : String) : Except ChainError Name :=
  match names.fromUtf8 text with
  | .error why => .error (.structure s!"{text} is not a DNS name: {why}")
  | .ok name => .ok name.toLowercase

end Synch.Transparency
