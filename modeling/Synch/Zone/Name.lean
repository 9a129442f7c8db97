import Synch.Support.Terminated
import Synch.Transparency.Names

/-!
# Names in the control plane's zone

The control plane keeps a name as its list of labels.  It looks names up by their
dotted text and orders them by a key of bytes.  A label off the wire may hold a dot
or a zero byte; the text and the key then stand for other names.
-/

namespace Synch.Zone

open List Synch.Support
open Synch.Transparency (Label encodedLength lowerByte)

/-- Labels without the root's, the one furthest from the root first. -/
abbrev Name := List Label

def plainByte (byte : UInt8) : Bool :=
  (97 ≤ byte && byte ≤ 122) || (48 ≤ byte && byte ≤ 57) || byte == 45

/-- A label of a name in presentation form: letters, digits, hyphens, underscores. -/
def validLabel (label : Label) : Bool :=
  1 ≤ label.length && label.length ≤ 63 && label.all fun byte => plainByte byte || byte == 95

def validDeviceLabel (label : Label) : Bool :=
  1 ≤ label.length && label.length ≤ 63 && label.all plainByte

def validDnsLabel (label : Label) : Bool :=
  validDeviceLabel label && label.head? != some 45 && label.getLast? != some 45

/-- A name that the parser of presentation forms returns. -/
structure ZoneName where
  labels : Name
  valid_labels : ∀ label ∈ labels, validLabel label = true
  encoded_length : encodedLength labels ≤ 255
deriving DecidableEq

/-! ## Forms -/

def dot : UInt8 := 46

/-- Presentation form, always absolute. -/
def toText (name : Name) : List UInt8 :=
  match name with
  | [] => [dot]
  | _ => [dot].intercalate name ++ [dot]

/-- Uncompressed wire form. -/
def encode (name : Name) : List UInt8 :=
  name.flatMap (fun label => UInt8.ofNat label.length :: label) ++ [0]

/-- Whether a name is the apex or lies under it. -/
def inZone (name apex : Name) : Bool :=
  apex.length ≤ name.length && name.drop (name.length - apex.length) == apex

/-- The labels reversed, each ended by a zero byte. -/
def sortKey (name : Name) : List UInt8 :=
  terminated 0 name.reverse

/-- The bound above the keys at or under a name. -/
def sortKeyUpper (name : Name) : List UInt8 :=
  sortKey name ++ [0xff]

def compareReversed : List Label → List Label → Ordering
  | [], [] => .eq
  | [], _ :: _ => .lt
  | _ :: _, [] => .gt
  | x :: xs, y :: ys =>
    match compare x y with
    | .eq => compareReversed xs ys
    | other => other

/-- Canonical order: from the rightmost label, each label as a byte string. -/
def compareNames (a b : Name) : Ordering :=
  compareReversed a.reverse b.reverse

theorem length_encode (name : Name) : (encode name).length = encodedLength name := by
  simp [encode, encodedLength, length_flatMap]

variable {name a b : Name}

theorem inZone_eq_true_iff {apex : Name} : inZone name apex = true ↔ apex <:+ name := by
  rw [inZone, Bool.and_eq_true, decide_eq_true_eq, beq_iff_eq]
  constructor
  · rintro ⟨-, hdrop⟩
    rw [← hdrop]
    exact drop_suffix _ _
  · intro h
    refine ⟨h.length_le, ?_⟩
    obtain ⟨front, rfl⟩ := h
    simp

/-! ## The text -/

/-- No label of the name is empty or holds a dot or a zero byte. -/
structure Plain (name : Name) : Prop where
  nonempty : [] ∉ name
  dots : Free dot name
  zeros : Free 0 name

theorem plain_of_valid (h : ∀ label ∈ name, validLabel label = true) : Plain name := by
  have hbytes : ∀ label ∈ name, label ≠ [] ∧ dot ∉ label ∧ 0 ∉ label := by
    intro label hlabel
    have hvalid := h label hlabel
    simp only [validLabel, Bool.and_eq_true, decide_eq_true_eq, all_eq_true] at hvalid
    refine ⟨fun hnil => ?_, fun hmem => ?_, fun hmem => ?_⟩
    · simp [hnil] at hvalid
    · exact absurd (hvalid.2 _ hmem) (by decide)
    · exact absurd (hvalid.2 _ hmem) (by decide)
  exact ⟨fun hmem => (hbytes [] hmem).1 rfl, fun label hl => (hbytes label hl).2.1,
    fun label hl => (hbytes label hl).2.2⟩

theorem ZoneName.plain (name : ZoneName) : Plain name.labels :=
  plain_of_valid name.valid_labels

theorem cutAt_ne_root (h : [] ∉ name) : cutAt dot name ≠ [[]] := by
  intro hcut
  cases name with
  | nil => cases hcut
  | cons label rest =>
    have hne : label.splitOn dot ≠ [] := splitOnP_ne_nil _ _
    rw [cutAt, flatMap_cons, append_eq_singleton_iff] at hcut
    obtain ⟨hnil, -⟩ | ⟨hroot, -⟩ := hcut
    · exact hne hnil
    · have hlabel : [dot].intercalate (label.splitOn dot) = label :=
        intercalate_splitOn dot
      rw [hroot] at hlabel
      exact h (hlabel ▸ mem_cons_self)

/-- The labels that the dotted text of a name spells. -/
def spelled (name : Name) : Name :=
  if name = [] then [[]] else name

theorem toText_eq_terminated (name : Name) : toText name = terminated dot (spelled name) := by
  unfold toText spelled
  split
  · simp
  · rename_i hname
    rw [if_neg (by simpa using hname), terminated_eq_intercalate dot (by simpa using hname)]

/-- A name has a plain owner's text if its labels cut at their dots are the owner. -/
theorem toText_eq_iff {owner : Name} (hname : [] ∉ name) (howner : Plain owner) :
    toText name = toText owner ↔ cutAt dot name = owner := by
  have hfree : Free dot (spelled owner) := by
    unfold spelled
    split
    · simp [Free]
    · exact howner.dots
  rw [toText_eq_terminated, toText_eq_terminated, ← terminated_cutAt dot (spelled name),
    terminated_inj (free_cutAt dot _) hfree]
  unfold spelled
  by_cases hnil : name = []
  · subst hnil
    by_cases hroot : owner = []
    · simp [hroot, cutAt]
    · have hother : owner ≠ [[]] := fun h => howner.nonempty (h ▸ mem_cons_self)
      simp [hroot, cutAt, hother.symm, Ne.symm hroot]
  · rw [if_neg hnil]
    by_cases hroot : owner = []
    · have hcut : cutAt dot name ≠ [] := by
        obtain ⟨label, rest, rfl⟩ := exists_cons_of_ne_nil hnil
        have hne : label.splitOn dot ≠ [] := splitOnP_ne_nil _ _
        simp [cutAt, hne]
      simp [hroot, hcut, cutAt_ne_root hname]
    · rw [if_neg hroot]

/-- The name whose key a name has: its labels cut at their zero bytes. -/
def zeroCut (name : Name) : Name :=
  (cutAt 0 name.reverse).reverse

theorem zeroCut_of_free (h : Free 0 name) : zeroCut name = name := by
  have hreverse : Free 0 name.reverse := fun label hlabel => h label (mem_reverse.mp hlabel)
  rw [zeroCut, cutAt_of_free hreverse, reverse_reverse]

/-- A key extends a name's if the owner lies at or under the name it stands for. -/
theorem sortKey_prefix_iff {owner : Name} (howner : Free 0 owner) :
    sortKey name <+: sortKey owner ↔ zeroCut name <:+ owner := by
  have hreverse : Free 0 owner.reverse :=
    fun label hlabel => howner label (mem_reverse.mp hlabel)
  rw [sortKey, sortKey, ← terminated_cutAt 0 name.reverse,
    terminated_prefix_iff (free_cutAt 0 _) hreverse, zeroCut, ← reverse_prefix,
    reverse_reverse]

/-! ## The order -/

/-- What canonical order compares: the labels from the root's end, as numbers. -/
def orderKey (name : Name) : List (List ℕ) :=
  name.reverse.map fun label => label.map UInt8.toNat

theorem orderKey_injective : Function.Injective orderKey := by
  intro a b h
  have hlabel : Function.Injective fun label : Label => label.map UInt8.toNat :=
    map_injective_iff.mpr fun _ _ => UInt8.toNat.inj
  exact reverse_injective (map_injective_iff.mpr hlabel h)

theorem orderKey_prefix_iff : orderKey a <+: orderKey b ↔ a <:+ b := by
  have hlabel : Function.Injective fun label : Label => label.map UInt8.toNat :=
    map_injective_iff.mpr fun _ _ => UInt8.toNat.inj
  rw [orderKey, orderKey, prefix_map_iff_of_injective hlabel, reverse_prefix]

/-- A comparison decides the order of the numbers its arguments stand for. -/
structure Compares {α β : Type*} [LinearOrder β] (comparison : α → α → Ordering) (f : α → β) :
    Prop where
  lt_iff : ∀ a b, comparison a b = .lt ↔ f a < f b
  eq_iff : ∀ a b, comparison a b = .eq ↔ f a = f b

theorem compares_byte : Compares compare UInt8.toNat where
  lt_iff := fun a b => by
    rw [Std.compare_eq_lt, UInt8.lt_iff_toNat_lt]
  eq_iff := fun a b => by
    rw [Std.compare_eq_iff_eq, UInt8.toNat_inj]

theorem Compares.list {α β : Type*} [Ord α] [LinearOrder β] {f : α → β} (h : Compares compare f) :
    Compares compare (List.map f) := by
  have hboth : ∀ l m : List α, (compare l m = .lt ↔ l.map f < m.map f) ∧
      (compare l m = .eq ↔ l.map f = m.map f) := by
    intro l
    induction l with
    | nil => intro m; cases m <;> simp
    | cons a l ih =>
      intro m
      cases m with
      | nil => simp
      | cons b m =>
        obtain ⟨hlt, heq⟩ := ih m
        rw [List.compare_cons_cons, Ordering.then_eq_lt, Ordering.then_eq_eq, h.lt_iff,
          h.eq_iff, hlt, heq, map_cons, map_cons, cons_lt_cons_iff,
          cons.injEq]
        exact ⟨Iff.rfl, Iff.rfl⟩
  exact ⟨fun l m => (hboth l m).1, fun l m => (hboth l m).2⟩

theorem compareReversed_eq (a b : List Label) : compareReversed a b = compare a b := by
  induction a generalizing b with
  | nil => cases b <;> rfl
  | cons x a ih =>
    cases b with
    | nil => rfl
    | cons y b =>
      rw [compareReversed, List.compare_cons_cons, ih]
      cases compare x y <;> rfl

theorem compareNames_ne_gt_iff : compareNames a b ≠ .gt ↔ orderKey a ≤ orderKey b := by
  have hcompares := compares_byte.list.list
  rw [compareNames, compareReversed_eq, le_iff_lt_or_eq, orderKey, orderKey,
    ← hcompares.lt_iff, ← hcompares.eq_iff]
  cases compare a.reverse b.reverse <;> simp

/-- The bytes of a key as numbers, which is how the database compares them. -/
def keyNumbers (key : List UInt8) : List ℕ :=
  key.map UInt8.toNat

theorem keyNumbers_sortKey (name : Name) :
    keyNumbers (sortKey name) = terminated 0 (orderKey name) := by
  rw [orderKey, terminated, flatMap_map, keyNumbers, sortKey, terminated, map_flatMap]
  simp

/-- Over names without zero bytes the keys are in canonical order. -/
theorem sortKey_lt_iff (ha : Free 0 a) (hb : Free 0 b) :
    keyNumbers (sortKey a) < keyNumbers (sortKey b) ↔ orderKey a < orderKey b := by
  have hpositive : ∀ {name : Name}, Free 0 name → ∀ word ∈ orderKey name, ∀ n ∈ word, 0 < n := by
    intro name hfree word hword n hn
    obtain ⟨label, hlabel, rfl⟩ := mem_map.mp hword
    obtain ⟨byte, hbyte, rfl⟩ := mem_map.mp hn
    have hne : byte ≠ 0 := fun h => hfree label (mem_reverse.mp hlabel) (h ▸ hbyte)
    exact Nat.pos_of_ne_zero fun h => hne (UInt8.toNat.inj h)
  rw [keyNumbers_sortKey, keyNumbers_sortKey, terminated_lt_iff (hpositive ha) (hpositive hb)]

end Synch.Zone
