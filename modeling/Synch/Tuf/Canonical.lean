import Synch.Support.Unambiguous
import Synch.Tuf.Value

/-!
# The canonical form determines the value

Values count as equal if they are the same once the members of every object are put in the order
of their keys.
-/

namespace Synch.Tuf

open List Synch.Support

/-! ## Members in order -/

mutual

/-- The value with the members of every object in the order of their keys. -/
def Value.sorted : Value → Value
  | .null => .null
  | .bool value => .bool value
  | .number value => .number value
  | .string value => .string value
  | .array items => .array (sortedItems items)
  | .object members => .object (sortMembers (sortedMembers members))

def sortedItems : List Value → List Value
  | [] => []
  | item :: items => item.sorted :: sortedItems items

def sortedMembers : List (String × Value) → List (String × Value)
  | [] => []
  | (key, value) :: members => (key, value.sorted) :: sortedMembers members

end

theorem sortedItems_eq (items : List Value) : sortedItems items = items.map Value.sorted := by
  induction items with
  | nil => rfl
  | cons item items ih => rw [sortedItems, ih, map_cons]

theorem sortedMembers_eq (members : List (String × Value)) :
    sortedMembers members = members.map (Prod.map id Value.sorted) := by
  induction members with
  | nil => rfl
  | cons member members ih => rw [sortedMembers, ih, map_cons, Prod.map, id]

theorem writeMembers_eq (members : List (String × Value)) :
    writeMembers members = members.map (Prod.map id writeCanonical) := by
  induction members with
  | nil => rfl
  | cons member members ih => rw [writeMembers, ih, map_cons, Prod.map, id]

theorem writeItems_eq (items : List Value) : writeItems items = items.mapM writeCanonical := by
  induction items with
  | nil => rfl
  | cons item items ih => rw [writeItems, ih, mapM_cons]

/-- The order of the keys does not depend on the values. -/
theorem sortMembers_map {α β : Type} (f : α → β) (members : List (String × α)) :
    sortMembers (members.map (Prod.map id f)) = (sortMembers members).map (Prod.map id f) := by
  unfold sortMembers
  exact (map_insertionSort (fun a b : String × α => a.1 ≤ b.1)
    (fun a b : String × β => a.1 ≤ b.1) (Prod.map id f) members fun _ _ _ _ => Iff.rfl).symm

theorem mem_sortMembers {α : Type} {members : List (String × α)} {member : String × α} :
    member ∈ sortMembers members ↔ member ∈ members :=
  mem_insertionSort _

/-- Members with distinct keys have one order. -/
theorem sortMembers_eq_of_perm {α : Type} {members members' : List (String × α)}
    (hperm : members.Perm members') (hkeys : (members.map Prod.fst).Nodup) :
    sortMembers members = sortMembers members' := by
  have hsort : (sortMembers members).Perm (sortMembers members') :=
    (perm_insertionSort _ members).trans (hperm.trans (perm_insertionSort _ members').symm)
  refine hsort.eq_of_pairwise ?_ (pairwise_insertionSort _ _) (pairwise_insertionSort _ _)
  intro a b ha hb hab hba
  have hkey : a.1 = b.1 := le_antisymm hab hba
  exact inj_on_of_nodup_map hkeys (mem_sortMembers.mp ha)
    (hperm.mem_iff.mpr (mem_sortMembers.mp hb)) hkey

/-! ## What is written -/

mutual

/-- What is written for a value whose members are in order. -/
inductive Written : Value → List Char → Prop
  | null : Written .null "null".toList
  | yes : Written (.bool true) "true".toList
  | no : Written (.bool false) "false".toList
  | number {number : Number} {text : List Char} :
      writeNumber number = .ok text → Written (.number number) text
  | string (text : String) : Written (.string text) (writeString text)
  | array {items : List Value} {texts : List (List Char)} :
      List.Forall₂ Written items texts → Written (.array items) (writeArray texts)
  | object {members : List (String × Value)} {texts : List (List Char)} :
      List.Forall₂ WrittenMember members texts → Written (.object members) (writeObject texts)

inductive WrittenMember : String × Value → List Char → Prop
  | mk (key : String) {value : Value} {text : List Char} :
      Written value text → WrittenMember (key, value) (writeMember key text)

end

theorem forall₂_of_mem {α β : Type} {R S : α → β → Prop} {l : List α} {m : List β}
    (himp : ∀ a ∈ l, ∀ b, R a b → S a b) (h : List.Forall₂ R l m) : List.Forall₂ S l m :=
  ((forall₂_and_left (p := fun a => ∀ b, R a b → S a b) l m).mpr ⟨himp, h⟩).imp
    fun _ _ hab => hab.1 _ hab.2

theorem sizeOf_item_lt {item : Value} {items : List Value} (h : item ∈ items) :
    sizeOf item < sizeOf (Value.array items) := by
  have hlt := sizeOf_lt_of_mem h
  simp only [Value.array.sizeOf_spec]
  omega

theorem sizeOf_member_lt {member : String × Value} {members : List (String × Value)}
    (h : member ∈ members) : sizeOf member.2 < sizeOf (Value.object members) := by
  have hlt := sizeOf_lt_of_mem h
  obtain ⟨key, value⟩ := member
  simp only [Prod.mk.sizeOf_spec] at hlt
  simp only [Value.object.sizeOf_spec]
  omega

/-- The source writes the value with its members in order. -/
theorem written_of_writeCanonical (value : Value) {text : List Char}
    (h : writeCanonical value = .ok text) : Written value.sorted text := by
  match value with
  | .null =>
    cases h
    exact .null
  | .bool true =>
    cases h
    exact .yes
  | .bool false =>
    cases h
    exact .no
  | .number number => exact .number h
  | .string value =>
    cases h
    exact .string value
  | .array items =>
    rw [writeCanonical, writeItems_eq] at h
    obtain ⟨texts, htexts, hdone⟩ := bind_eq_ok_iff.mp h
    cases hdone
    rw [Value.sorted, sortedItems_eq]
    refine .array (forall₂_map_left_iff.mpr ?_)
    exact forall₂_of_mem
      (fun item hitem _ htext => written_of_writeCanonical item htext)
      (mapM_eq_ok_iff.mp htexts)
  | .object members =>
    rw [writeCanonical, writeMembers_eq, sortMembers_map] at h
    obtain ⟨texts, htexts, hdone⟩ := bind_eq_ok_iff.mp h
    cases hdone
    rw [Value.sorted, sortedMembers_eq, sortMembers_map]
    refine .object (forall₂_map_left_iff.mpr ?_)
    refine forall₂_of_mem ?_ (forall₂_map_left_iff.mp (mapM_eq_ok_iff.mp htexts))
    rintro ⟨key, value⟩ hmember text htext
    obtain ⟨inner, hinner, hdone⟩ := bind_eq_ok_iff.mp htext
    cases hdone
    exact .mk key (written_of_writeCanonical value hinner)
termination_by value
decreasing_by
  · exact sizeOf_item_lt hitem
  · exact sizeOf_member_lt (mem_sortMembers.mp hmember)

/-! ## Strings and numbers -/

variable {c : Char} {r s text : List Char}

theorem escape_of_ne (hquote : c ≠ '"') (hslash : c ≠ '\\') : escape c = [c] := by
  rw [escape, if_neg hquote, if_neg hslash]

/-- An escaped character is told from the closing quote and from every other. -/
theorem escape_append_inj {d : Char} (h : escape c ++ r = escape d ++ s) : c = d ∧ r = s := by
  unfold escape at h
  split_ifs at h <;> grind

theorem escape_append_ne : escape c ++ r ≠ '"' :: s := by
  unfold escape
  split_ifs <;> simp_all

theorem flatMap_escape_inj {text' : List Char}
    (h : text.flatMap escape ++ '"' :: r = text'.flatMap escape ++ '"' :: s) :
    text = text' ∧ r = s := by
  induction text generalizing text' with
  | nil =>
    cases text' with
    | nil => exact ⟨rfl, (cons.inj h).2⟩
    | cons c text' =>
      rw [flatMap_cons, append_assoc] at h
      exact absurd h.symm escape_append_ne
  | cons c text ih =>
    cases text' with
    | nil =>
      rw [flatMap_cons, append_assoc] at h
      exact absurd h escape_append_ne
    | cons d text' =>
      rw [flatMap_cons, flatMap_cons, append_assoc, append_assoc] at h
      obtain ⟨rfl, hrest⟩ := escape_append_inj h
      obtain ⟨rfl, hrs⟩ := ih hrest
      exact ⟨rfl, hrs⟩

theorem writeString_inj {text text' : String} (h : writeString text ++ r = writeString text' ++ s) :
    text = text' ∧ r = s := by
  simp only [writeString, cons_append, append_assoc, nil_append, cons.injEq, true_and] at h
  obtain ⟨htext, hrs⟩ := flatMap_escape_inj h
  exact ⟨String.toList_inj.mp htext, hrs⟩

/-- What may follow a value: no digit. -/
def Follow (rest : List Char) : Prop :=
  ∀ c, rest.head? = some c → c.isDigit = false

theorem takeWhile_digits {digits rest : List Char} (h : ∀ c ∈ digits, c.isDigit = true)
    (hrest : Follow rest) : (digits ++ rest).takeWhile Char.isDigit = digits := by
  rw [takeWhile_append_of_pos h]
  cases rest with
  | nil => simp
  | cons c rest => simp [hrest c rfl]

theorem isDigit_of_mem_repr {n : Nat} (h : c ∈ n.repr.toList) : c.isDigit = true := by
  rw [Nat.repr_eq_ofList_toDigits, String.toList_ofList] at h
  exact Nat.isDigit_of_mem_toDigits (by decide) (by decide) h

theorem exists_digit_of_repr (n : Nat) :
    ∃ c rest, n.repr.toList = c :: rest ∧ c.isDigit = true := by
  have hne : n.repr.toList ≠ [] := by
    rw [Nat.repr_eq_ofList_toDigits, String.toList_ofList]
    exact Nat.toDigits_ne_nil
  obtain ⟨c, rest, hrepr⟩ := exists_cons_of_ne_nil hne
  exact ⟨c, rest, hrepr, isDigit_of_mem_repr (hrepr ▸ mem_cons_self)⟩

theorem digits_inj {n m : Nat} (hr : Follow r) (hs : Follow s)
    (h : n.repr.toList ++ r = m.repr.toList ++ s) : n = m ∧ r = s := by
  have hwhile := congrArg (takeWhile Char.isDigit) h
  rw [takeWhile_digits (fun _ => isDigit_of_mem_repr) hr,
    takeWhile_digits (fun _ => isDigit_of_mem_repr) hs] at hwhile
  rw [hwhile] at h
  refine ⟨?_, append_cancel_left h⟩
  rw [Nat.repr_eq_ofList_toDigits, Nat.repr_eq_ofList_toDigits, String.toList_ofList,
    String.toList_ofList] at hwhile
  have hvalue := congrArg (fun digits => Nat.ofDigitChars 10 digits 0) hwhile
  simpa only [Nat.ofDigitChars_toDigits (by decide : 1 < 10) (by decide : 10 ≤ 10)] using hvalue

theorem writeNumber_eq_ok {number : Number} (h : writeNumber number = .ok text) :
    ∃ value range, number = .whole value range ∧ text = value.repr.toList := by
  cases number with
  | float float => cases h
  | whole value range =>
    refine ⟨value, range, rfl, ?_⟩
    by_cases hsmall : value < 2 ^ 63
    · simp only [writeNumber, Number.asI64, if_pos hsmall, Except.ok.injEq] at h
      exact h.symm
    · have hnonneg : 0 ≤ value := by omega
      simp only [writeNumber, Number.asI64, Number.asU64, if_neg hsmall, if_pos hnonneg,
        Except.ok.injEq] at h
      rw [Int.repr_eq_if, if_pos hnonneg]
      exact h.symm

/-- The text of a whole number is digits, with a minus before them if it is negative. -/
theorem toList_repr (v : Int) :
    v.repr.toList = if 0 ≤ v then v.toNat.repr.toList else '-' :: (-v).toNat.repr.toList := by
  rw [Int.repr_eq_if]
  split
  · rfl
  · rw [String.toList_append]
    rfl

theorem repr_append_ne_minus (n : Nat) (r s : List Char) : n.repr.toList ++ r ≠ '-' :: s := by
  obtain ⟨c, rest, hrepr, hdigit⟩ := exists_digit_of_repr n
  rw [hrepr, cons_append]
  intro h
  obtain ⟨rfl, -⟩ := cons.inj h
  exact absurd hdigit (by decide)

theorem int_inj {v w : Int} (hr : Follow r) (hs : Follow s)
    (h : v.repr.toList ++ r = w.repr.toList ++ s) : v = w ∧ r = s := by
  rw [toList_repr, toList_repr] at h
  by_cases hv : 0 ≤ v
  · by_cases hw : 0 ≤ w
    · rw [if_pos hv, if_pos hw] at h
      obtain ⟨hnat, hrs⟩ := digits_inj hr hs h
      exact ⟨by omega, hrs⟩
    · rw [if_pos hv, if_neg hw, cons_append] at h
      exact absurd h (repr_append_ne_minus _ _ _)
  · by_cases hw : 0 ≤ w
    · rw [if_neg hv, if_pos hw, cons_append] at h
      exact absurd h.symm (repr_append_ne_minus _ _ _)
    · rw [if_neg hv, if_neg hw] at h
      obtain ⟨hnat, hrs⟩ := digits_inj hr hs (cons.inj h).2
      exact ⟨by omega, hrs⟩

/-! ## Values -/

/-- What the first character of a text says about the value. -/
inductive Kind where
  | null
  | yes
  | no
  | number
  | string
  | array
  | object
deriving DecidableEq

def Value.kind : Value → Kind
  | .null => .null
  | .bool true => .yes
  | .bool false => .no
  | .number _ => .number
  | .string _ => .string
  | .array _ => .array
  | .object _ => .object

def kindOf (c : Char) : Option Kind :=
  if c = 'n' then some .null
  else if c = 't' then some .yes
  else if c = 'f' then some .no
  else if c = '"' then some .string
  else if c = '[' then some .array
  else if c = '\x7b' then some .object
  else if c = '-' ∨ c.isDigit = true then some .number
  else none

theorem kindOf_of_isDigit (h : c.isDigit = true) : kindOf c = some .number := by
  have hne : ∀ d : Char, d.isDigit = false → c ≠ d := by
    rintro d hd rfl
    rw [h] at hd
    cases hd
  simp [kindOf, h, hne 'n' rfl, hne 't' rfl, hne 'f' rfl, hne '"' rfl, hne '[' rfl, hne '\x7b' rfl]

/-- The first character of what is written tells the kind of the value. -/
theorem Written.head {value : Value} (h : Written value text) :
    ∃ c rest, text = c :: rest ∧ kindOf c = some value.kind := by
  cases h with
  | null => exact ⟨'n', _, rfl, rfl⟩
  | yes => exact ⟨'t', _, rfl, rfl⟩
  | no => exact ⟨'f', _, rfl, rfl⟩
  | string text => exact ⟨'"', _, rfl, rfl⟩
  | array htexts => exact ⟨'[', _, rfl, rfl⟩
  | object htexts => exact ⟨'\x7b', _, rfl, rfl⟩
  | number htext =>
    obtain ⟨v, range, rfl, rfl⟩ := writeNumber_eq_ok htext
    rw [toList_repr]
    split
    · obtain ⟨c, rest, hrepr, hdigit⟩ := exists_digit_of_repr v.toNat
      exact ⟨c, rest, hrepr, kindOf_of_isDigit hdigit⟩
    · exact ⟨'-', _, rfl, rfl⟩

theorem kind_eq_of_append_eq {v w : Value} {a b : List Char} (ha : Written v a) (hb : Written w b)
    (h : a ++ r = b ++ s) : v.kind = w.kind := by
  obtain ⟨c, rest, rfl, hc⟩ := ha.head
  obtain ⟨d, rest', rfl, hd⟩ := hb.head
  obtain ⟨rfl, -⟩ := cons.inj h
  exact Option.some.inj (hc.symm.trans hd)

theorem follow_of_not_digit (h : c.isDigit = false) (rest : List Char) : Follow (c :: rest) := by
  intro d hd
  cases hd
  exact h

theorem WrittenMember.unambiguous {member : String × Value}
    (h : Unambiguous Written Follow member.2) : Unambiguous WrittenMember Follow member := by
  intro other a b r s ha hb hr hs heq
  cases ha with
  | mk key hvalue =>
    cases hb with
    | mk key' hvalue' =>
      simp only [writeMember, append_assoc, cons_append] at heq
      obtain ⟨rfl, hrest⟩ := writeString_inj heq
      obtain ⟨rfl, hrs⟩ := h hvalue hvalue' hr hs (cons.inj hrest).2
      exact ⟨rfl, hrs⟩

theorem Written.unambiguous (value : Value) : Unambiguous Written Follow value := by
  intro w a b r s ha hb hr hs h
  have hkind := kind_eq_of_append_eq ha hb h
  match value with
  | .null =>
    cases ha
    cases hb <;> cases hkind
    exact ⟨rfl, append_cancel_left h⟩
  | .bool flag =>
    cases ha <;> cases hb <;> cases hkind
    · exact ⟨rfl, append_cancel_left h⟩
    · exact ⟨rfl, append_cancel_left h⟩
  | .number n =>
    cases ha with
    | number htext =>
      cases hb <;> cases hkind
      rename_i htext'
      obtain ⟨v, range, rfl, rfl⟩ := writeNumber_eq_ok htext
      obtain ⟨v', range', rfl, rfl⟩ := writeNumber_eq_ok htext'
      obtain ⟨rfl, hrs⟩ := int_inj hr hs h
      exact ⟨rfl, hrs⟩
  | .string text =>
    cases ha
    cases hb <;> cases hkind
    obtain ⟨rfl, hrs⟩ := writeString_inj h
    exact ⟨rfl, hrs⟩
  | .array items =>
    cases ha with
    | array htexts =>
      cases hb <;> cases hkind
      rename_i items' texts' htexts'
      simp only [writeArray, cons_append, ← separated_eq_intercalate] at h
      obtain ⟨rfl, hrs⟩ := separated_unambiguous (by decide : ',' ≠ ']')
        (follow_of_not_digit rfl) (follow_of_not_digit rfl)
        (fun rest htext => by
          obtain ⟨c, after, rfl, hc⟩ := htext.head
          rintro hclose
          cases hclose
          cases hc)
        (fun item hitem => Written.unambiguous item) htexts htexts' (cons.inj h).2
      exact ⟨rfl, hrs⟩
  | .object members =>
    cases ha with
    | object htexts =>
      cases hb <;> cases hkind
      rename_i members' texts' htexts'
      simp only [writeObject, cons_append, ← separated_eq_intercalate] at h
      obtain ⟨rfl, hrs⟩ := separated_unambiguous (by decide : ',' ≠ '\x7d')
        (follow_of_not_digit rfl) (follow_of_not_digit rfl)
        (fun rest htext => by
          cases htext
          rintro hclose
          cases hclose)
        (fun member hmember => WrittenMember.unambiguous (Written.unambiguous member.2))
        htexts htexts' (cons.inj h).2
      exact ⟨rfl, hrs⟩
termination_by value
decreasing_by
  · exact sizeOf_item_lt hitem
  · exact sizeOf_member_lt hmember

/-! ## The canonical form -/

theorem sortMembers_idem {α : Type} (members : List (String × α)) :
    sortMembers (sortMembers members) = sortMembers members :=
  (pairwise_insertionSort _ members).insertionSort_eq

theorem mapM_congr {ε α β : Type} {f g : α → Except ε β} {items : List α}
    (h : ∀ item ∈ items, f item = g item) : items.mapM f = items.mapM g := by
  induction items with
  | nil => rfl
  | cons item items ih =>
    rw [mapM_cons, mapM_cons, h item mem_cons_self,
      ih fun other hother => h other (mem_cons_of_mem _ hother)]

/-- The order in which members stand does not matter to what is written. -/
theorem writeCanonical_sorted (value : Value) :
    writeCanonical value.sorted = writeCanonical value := by
  match value with
  | .null => rfl
  | .bool flag => rfl
  | .number n => rfl
  | .string text => rfl
  | .array items =>
    have hitems : (items.map Value.sorted).mapM writeCanonical = items.mapM writeCanonical := by
      rw [mapM_map]
      exact mapM_congr fun item hitem => writeCanonical_sorted item
    rw [Value.sorted, sortedItems_eq, writeCanonical, writeCanonical, writeItems_eq, writeItems_eq,
      hitems]
  | .object members =>
    have hmembers : (sortMembers members).map (Prod.map id (writeCanonical ∘ Value.sorted)) =
        (sortMembers members).map (Prod.map id writeCanonical) := by
      apply map_congr_left
      rintro ⟨key, value⟩ hmember
      exact congrArg (Prod.mk key) (writeCanonical_sorted value)
    rw [Value.sorted, sortedMembers_eq, sortMembers_map, writeCanonical, writeCanonical,
      writeMembers_eq, writeMembers_eq, map_map, Prod.map_comp_map, Function.comp_id,
      sortMembers_map, sortMembers_map, sortMembers_idem, hmembers]
termination_by value
decreasing_by
  · exact sizeOf_item_lt hitem
  · exact sizeOf_member_lt (mem_sortMembers.mp hmember)

theorem sorted_eq_of_written {v w : Value} (hv : writeCanonical v = .ok text)
    (hw : writeCanonical w = .ok text) : v.sorted = w.sorted := by
  have hfollow : Follow [] := fun c hc => by cases hc
  exact (Written.unambiguous v.sorted (written_of_writeCanonical v hv)
    (written_of_writeCanonical w hw) hfollow hfollow rfl).1

theorem exists_written_of_canonicalJson {value : Value} {bytes : List UInt8}
    (h : canonicalJson value = .ok bytes) :
    ∃ text, writeCanonical value = .ok text ∧ (String.ofList text).toByteArray.data.toList = bytes := by
  obtain ⟨text, htext, hbytes⟩ := bind_eq_ok_iff.mp h
  exact ⟨text, htext, pure_eq_ok_iff.mp hbytes⟩

theorem bytes_injective {text' : List Char}
    (h : (String.ofList text).toByteArray.data.toList = (String.ofList text').toByteArray.data.toList) :
    text = text' := by
  have hbytes := ByteArray.ext (Array.toList_inj.mp h)
  exact String.ofList_injective (String.toByteArray_inj.mp hbytes)

/-- Equal bytes are the canonical form of one value only, and the order in which members were
inserted has no part in them. -/
theorem canonicalJson_determines (v w : Value) :
    (∀ bytes, canonicalJson v = .ok bytes → canonicalJson w = .ok bytes → v.sorted = w.sorted) ∧
      (v.sorted = w.sorted → canonicalJson v = canonicalJson w) ∧
      ∀ members members' : List (String × Value), members.Perm members' →
        (members.map Prod.fst).Nodup →
        canonicalJson (.object members) = canonicalJson (.object members') := by
  have hsorted : ∀ v w : Value, v.sorted = w.sorted → canonicalJson v = canonicalJson w := by
    intro v w h
    rw [canonicalJson, canonicalJson, ← writeCanonical_sorted v, h, writeCanonical_sorted w]
  refine ⟨?_, hsorted v w, ?_⟩
  · intro bytes hv hw
    obtain ⟨text, htext, rfl⟩ := exists_written_of_canonicalJson hv
    obtain ⟨text', htext', hbytes⟩ := exists_written_of_canonicalJson hw
    obtain rfl := bytes_injective hbytes
    exact sorted_eq_of_written htext htext'
  · intro members members' hperm hkeys
    apply hsorted
    rw [Value.sorted, Value.sorted, sortedMembers_eq, sortedMembers_eq, sortMembers_map,
      sortMembers_map, sortMembers_eq_of_perm hperm hkeys]

/-- Two orders of inserting a version and a threshold. -/
theorem canonicalJson_determines_pair :
    ∃ bytes,
      canonicalJson (.object [("version", .bool true), ("threshold", .null)]) = .ok bytes ∧
      canonicalJson (.object [("threshold", .null), ("version", .bool true)]) = .ok bytes ∧
      (Value.object [("version", .bool true), ("threshold", .null)]).sorted =
        (Value.object [("threshold", .null), ("version", .bool true)]).sorted := by
  have hbytes := (canonicalJson_determines .null .null).2.2
    [("version", .bool true), ("threshold", .null)] [("threshold", .null), ("version", .bool true)]
    (List.Perm.swap _ _ _) (by decide)
  refine ⟨_, rfl, hbytes.symm, ?_⟩
  exact (canonicalJson_determines _ _).1 _ rfl hbytes.symm

end Synch.Tuf
