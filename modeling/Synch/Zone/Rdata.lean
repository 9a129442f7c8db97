import Mathlib.Data.List.Sort
import Mathlib.Data.List.TakeWhile
import Mathlib.Data.Nat.Bitwise
import Synch.Support.Wire
import Synch.Zone.Name

/-!
# Record data

The record types the zone serves, in canonical form, and the bitmap of types in a
denial record.  A reader of the bitmap finds exactly the types it was made from.
-/

namespace Synch.Zone

open List Synch.Support

def typeA : Nat := 1
def typeNs : Nat := 2
def typeSoa : Nat := 6
def typeTxt : Nat := 16
def typeAaaa : Nat := 28
def typeOpt : Nat := 41
def typeRrsig : Nat := 46
def typeNsec : Nat := 47
def typeDnskey : Nat := 48
def classIn : Nat := 1

/-- A number in so many bytes, most significant first. -/
def bigEndian : Nat → Nat → List UInt8
  | 0, _ => []
  | bytes + 1, n => UInt8.ofNat (n / 256 ^ bytes) :: bigEndian bytes n

@[simp] theorem length_bigEndian (bytes n : Nat) : (bigEndian bytes n).length = bytes := by
  induction bytes with
  | zero => rfl
  | succ bytes ih => simp [bigEndian, ih]

/-- A full uncompressed record. -/
def rr (owner : Name) (rtype ttl : Nat) (rdata : List UInt8) : List UInt8 :=
  encode owner ++ bigEndian 2 rtype ++ bigEndian 2 classIn ++ bigEndian 4 ttl ++
    bigEndian 2 rdata.length ++ rdata

/-- A text's bytes in character-strings of at most 255. -/
def chunkTxt (bytes : List UInt8) : List UInt8 :=
  if bytes.length ≤ 255 then UInt8.ofNat bytes.length :: bytes
  else 255 :: bytes.take 255 ++ chunkTxt (bytes.drop 255)
termination_by bytes.length
decreasing_by simp; omega

def soaRdata (mname rname : Name) (serial refresh retry expire minimum : Nat) : List UInt8 :=
  encode mname ++ encode rname ++ bigEndian 4 serial ++ bigEndian 4 refresh ++
    bigEndian 4 retry ++ bigEndian 4 expire ++ bigEndian 4 minimum

def dnskeyRdata (flags algorithm : Nat) (publicKey : List UInt8) : List UInt8 :=
  bigEndian 2 flags ++ bigEndian 1 3 ++ bigEndian 1 algorithm ++ publicKey

/-! ## The bitmap -/

def bitmapByte (inWindow : List Nat) (index : Nat) : Nat :=
  inWindow.foldl (fun acc t => if t / 8 = index then acc ||| 1 <<< (7 - t % 8) else acc) 0

def bitmapBytes (len : Nat) (inWindow : List Nat) : List UInt8 :=
  (List.range len).map fun index => UInt8.ofNat (bitmapByte inWindow index)

/-- The blocks of ascending types, one for each window of 256. -/
def windows (types : List Nat) : List UInt8 :=
  match types with
  | [] => []
  | first :: rest =>
    let window := first / 256
    let mine := (first :: rest).takeWhile fun t => t / 256 = window
    let others := (first :: rest).dropWhile fun t => t / 256 = window
    let inWindow := mine.map (· % 256)
    let len := (inWindow.getLast?.getD 0) / 8 + 1
    UInt8.ofNat window :: UInt8.ofNat len :: bitmapBytes len inWindow ++ windows others
termination_by types.length
decreasing_by
  rw [List.dropWhile_cons_of_pos (by simp)]
  exact Nat.lt_succ_of_le (List.dropWhile_suffix _).length_le

def typeBitmap (types : List Nat) : List UInt8 :=
  windows (types.eraseDups.insertionSort (· ≤ ·))

def nsecRdata (next : Name) (types : List Nat) : List UInt8 :=
  encode next ++ typeBitmap types

/-- Whether a bitmap names a type, as RFC 4034 reads it. -/
def bitmapHas (bitmap : List UInt8) (t : Nat) : Bool :=
  match bitmap with
  | window :: len :: rest =>
    if window.toNat = t / 256 then
      t % 256 / 8 < len.toNat && ((rest.getD (t % 256 / 8) 0).toNat.testBit (7 - t % 8))
    else bitmapHas (rest.drop len.toNat) t
  | _ => false
termination_by bitmap.length
decreasing_by simp; omega

theorem testBit_foldl_bits (inWindow : List Nat) (acc index bit : Nat) :
    (inWindow.foldl (fun acc t => if t / 8 = index then acc ||| 1 <<< (7 - t % 8) else acc)
        acc).testBit bit = true ↔
      acc.testBit bit = true ∨ ∃ t ∈ inWindow, t / 8 = index ∧ 7 - t % 8 = bit := by
  induction inWindow generalizing acc with
  | nil => simp
  | cons t inWindow ih =>
    rw [foldl_cons, ih, exists_mem_cons_iff]
    split_ifs with hindex
    · simp [hindex, Nat.one_shiftLeft, Nat.testBit_two_pow, or_assoc]
    · simp [hindex]

theorem testBit_bitmapByte (inWindow : List Nat) (index bit : Nat) :
    (bitmapByte inWindow index).testBit bit = true ↔
      ∃ t ∈ inWindow, t / 8 = index ∧ 7 - t % 8 = bit := by
  rw [bitmapByte, testBit_foldl_bits]
  simp

@[simp] theorem length_bitmapBytes (len : Nat) (inWindow : List Nat) :
    (bitmapBytes len inWindow).length = len := by
  simp [bitmapBytes]

theorem testBit_bitmapBytes
    {inWindow : List Nat} {len offset : Nat} (hlen : offset / 8 < len) (rest : List UInt8) :
    (((bitmapBytes len inWindow ++ rest).getD (offset / 8) 0).toNat.testBit (7 - offset % 8))
        = true ↔ offset ∈ inWindow := by
  have hget : (bitmapBytes len inWindow ++ rest).getD (offset / 8) 0 =
      UInt8.ofNat (bitmapByte inWindow (offset / 8)) := by
    rw [getD_append _ _ _ _ (by simpa using hlen)]
    simp [bitmapBytes, getD_eq_getElem?_getD, hlen]
  rw [hget, UInt8.toNat_ofNat', Nat.testBit_mod_two_pow, Bool.and_eq_true, testBit_bitmapByte]
  constructor
  · rintro ⟨-, u, hu, hindex, hbit⟩
    have hsame : u = offset := by omega
    rwa [← hsame]
  · intro hmem
    exact ⟨by simp; omega, offset, hmem, rfl, rfl⟩

theorem le_getLast_of_pairwise {l : List Nat} (h : l.Pairwise (· ≤ ·)) {t : Nat} (ht : t ∈ l) :
    t ≤ l.getLast?.getD 0 := by
  induction l using reverseRecOn with
  | nil => cases ht
  | append_singleton front last ih =>
    rw [getLast?_concat, Option.getD_some]
    obtain ht | ht := mem_append.mp ht
    · exact (pairwise_append.mp h).2.2 t ht last mem_cons_self
    · rw [mem_singleton.mp ht]

/-- Ascending types that leave the window of the first are above it. -/
theorem lt_of_mem_dropWhile {l : List Nat} {window : Nat} (h : l.Pairwise (· ≤ ·))
    (hwindow : ∀ t ∈ l, window ≤ t / 256) {t : Nat}
    (ht : t ∈ l.dropWhile fun t => t / 256 = window) :
    window < t / 256 := by
  induction l with
  | nil => cases ht
  | cons first rest ih =>
    obtain ⟨hfirst, hrest⟩ := pairwise_cons.mp h
    by_cases hin : first / 256 = window
    · rw [dropWhile_cons_of_pos (by simpa using hin)] at ht
      exact ih hrest (fun u hu => hwindow u (mem_cons_of_mem _ hu)) ht
    · rw [dropWhile_cons_of_neg (by simpa using hin)] at ht
      have hle := hwindow first mem_cons_self
      have hfirst : first ≤ t := by
        obtain rfl | ht := mem_cons.mp ht
        · exact le_rfl
        · exact hfirst t ht
      omega

/-- Reading past one block. -/
theorem bitmapHas_block {window len : Nat} (hwindow : window < 256) (hlen : len < 256)
    (inWindow : List Nat) (rest : List UInt8) (t : Nat) :
    bitmapHas (UInt8.ofNat window :: UInt8.ofNat len :: bitmapBytes len inWindow ++ rest) t
        = true ↔
      if window = t / 256 then t % 256 / 8 < len ∧ t % 256 ∈ inWindow
      else bitmapHas rest t = true := by
  rw [cons_append, cons_append, bitmapHas, toNat_ofNat_of_lt hwindow, toNat_ofNat_of_lt hlen]
  by_cases hin : window = t / 256
  · rw [if_pos hin, if_pos hin, Bool.and_eq_true, decide_eq_true_eq]
    refine and_congr_right fun hoffset => ?_
    have hbit : 7 - t % 8 = 7 - t % 256 % 8 := by omega
    rw [hbit, testBit_bitmapBytes hoffset]
  · rw [if_neg hin, if_neg hin, drop_left' (length_bitmapBytes len inWindow)]

theorem bitmapHas_windows {types : List Nat} (hsorted : types.Pairwise (· ≤ ·))
    (hsmall : ∀ t ∈ types, t < 65536) (t : Nat) :
    bitmapHas (windows types) t = true ↔ t ∈ types := by
  induction types using windows.induct with
  | case1 => simp [windows, bitmapHas]
  | case2 first rest window others ih =>
    rw [windows]
    set mine := (first :: rest).takeWhile fun t => t / 256 = first / 256
    have hsplit : mine ++ others = first :: rest := takeWhile_append_dropWhile
    obtain ⟨hmineSorted, hothersSorted, -⟩ :=
      pairwise_append.mp (hsplit.symm ▸ hsorted)
    have hmine : ∀ u ∈ mine, u / 256 = first / 256 := fun u hu => by
      simpa using mem_takeWhile_imp hu
    have hleast : ∀ u ∈ first :: rest, first / 256 ≤ u / 256 := by
      intro u hu
      obtain rfl | hu := mem_cons.mp hu
      · exact le_rfl
      · exact Nat.div_le_div_right ((pairwise_cons.mp hsorted).1 u hu)
    have hothers : ∀ u ∈ others, first / 256 < u / 256 := fun u hu =>
      lt_of_mem_dropWhile hsorted hleast hu
    have hmem : ∀ u, u ∈ first :: rest ↔ u ∈ mine ∨ u ∈ others := fun u => by
      rw [← hsplit, mem_append]
    have hfirst := hsmall first mem_cons_self
    have hlen : (mine.map (· % 256)).getLast?.getD 0 / 8 + 1 < 256 := by
      rw [getLast?_map]
      cases mine.getLast? with
      | none => simp
      | some last => simp only [Option.map_some, Option.getD_some]; omega
    rw [bitmapHas_block (by omega) hlen, hmem]
    split
    · have hnot : t ∉ others := fun ht => absurd (hothers t ht) (by omega)
      constructor
      · rintro ⟨-, hoffset⟩
        obtain ⟨u, hu, hsame⟩ := mem_map.mp hoffset
        have hwindow := hmine u hu
        have hut : u = t := by omega
        exact .inl (hut ▸ hu)
      · intro ht
        have ht := ht.resolve_right hnot
        have hle := le_getLast_of_pairwise hmineSorted ht
        refine ⟨?_, mem_map_of_mem ht⟩
        rw [getLast?_map]
        cases hlast : mine.getLast? with
        | none => exact absurd (getLast?_eq_none_iff.mp hlast) (ne_nil_of_mem ht)
        | some last =>
          have hwindow := hmine last (mem_of_getLast? hlast)
          rw [hlast, Option.getD_some] at hle
          rw [Option.map_some, Option.getD_some]
          omega
    · rename_i hin
      have hnot : t ∉ mine := fun ht => hin (hmine t ht).symm
      rw [ih hothersSorted fun u hu => hsmall u ((hmem u).mpr (.inr hu))]
      simp [hnot]

/-- A bitmap names the types it was made from and no other. -/
theorem bitmapHas_typeBitmap {types : List Nat} (hsmall : ∀ t ∈ types, t < 65536) (t : Nat) :
    bitmapHas (typeBitmap types) t = true ↔ t ∈ types := by
  have hmem : ∀ u, u ∈ types.eraseDups.insertionSort (· ≤ ·) ↔ u ∈ types := fun u => by
    rw [mem_insertionSort, mem_eraseDups]
  rw [typeBitmap, bitmapHas_windows sortedLE_insertionSort.pairwise
    (fun u hu => hsmall u ((hmem u).mp hu)), hmem]

end Synch.Zone
