import Mathlib.Data.String.Basic
import Synch.Support.Wire

/-!
# Bytes of text

An ASCII character is one byte, its own number, and every byte of another
character is above 127.  What is done to ASCII bytes alone is thus done to the
characters.  Bytes are ordered as the characters they stand for.
-/

namespace Synch.Support

open List
open String (utf8EncodeChar)

theorem toList_toByteArray (s : String) :
    s.toByteArray.data.toList = s.toList.flatMap utf8EncodeChar := by
  conv_lhs => rw [← String.ofList_toList (s := s), String.toByteArray_ofList]
  simp [utf8Encode]

theorem encodeChar_of_ascii {c : Char} (h : c.toNat ≤ 127) :
    utf8EncodeChar c = [UInt8.ofNat c.toNat] :=
  if_pos h

theorem le_of_mem_encodeChar {c : Char} (h : ¬c.toNat ≤ 127) {byte : UInt8}
    (hbyte : byte ∈ utf8EncodeChar c) : 128 ≤ byte.toNat := by
  change ¬c.val.toNat ≤ 127 at h
  simp only [utf8EncodeChar, if_neg h] at hbyte
  split_ifs at hbyte <;>
    · simp only [mem_cons, not_mem_nil, or_false] at hbyte
      rcases hbyte with rfl | rfl | rfl | rfl <;> simp only [UInt8.toNat_ofNat'] <;> omega

theorem toNat_ofNat_of_ascii {n : Nat} (h : n < 128) : (Char.ofNat n).toNat = n := by
  have hvalid : n.isValidChar := .inl (by omega)
  rw [Char.ofNat, dif_pos hvalid]
  rfl

theorem encodeChar_ne_nil (c : Char) : utf8EncodeChar c ≠ [] := by
  unfold utf8EncodeChar
  dsimp only
  split_ifs <;> simp

/-- Bytes are text if they are the bytes of characters. -/
theorem isSome_textOf_iff {bytes : List UInt8} :
    (textOf bytes).isSome = true ↔ ∃ chars : List Char, bytes = chars.flatMap utf8EncodeChar := by
  constructor
  · intro h
    obtain ⟨text, htext⟩ := Option.isSome_iff_exists.mp h
    refine ⟨text.toList, ?_⟩
    rw [← toList_toByteArray]
    unfold textOf String.fromUTF8? at htext
    split at htext
    · cases htext
      rfl
    · cases htext
  · rintro ⟨chars, rfl⟩
    have hbytes : (String.ofList chars).toByteArray.data.toList = chars.flatMap utf8EncodeChar := by
      rw [toList_toByteArray, String.toList_ofList]
    rw [← hbytes, textOf_toByteArray]
    rfl

/-- A change of ASCII bytes to ASCII bytes, and of no others, keeps text text. -/
theorem isSome_textOf_map {f : UInt8 → UInt8}
    (hascii : ∀ byte, byte.toNat ≤ 127 → (f byte).toNat ≤ 127)
    (hother : ∀ byte, 128 ≤ byte.toNat → f byte = byte) {bytes : List UInt8}
    (h : (textOf bytes).isSome = true) : (textOf (bytes.map f)).isSome = true := by
  obtain ⟨chars, rfl⟩ := isSome_textOf_iff.mp h
  have hchar : ∀ c : Char, ∃ c' : Char, (utf8EncodeChar c).map f = utf8EncodeChar c' := by
    intro c
    by_cases hc : c.toNat ≤ 127
    · have hbyte : (UInt8.ofNat c.toNat).toNat = c.toNat := toNat_ofNat_of_lt (by omega)
      have himage := hascii (UInt8.ofNat c.toNat) (by omega)
      refine ⟨Char.ofNat (f (UInt8.ofNat c.toNat)).toNat, ?_⟩
      have hnat := toNat_ofNat_of_ascii (n := (f (UInt8.ofNat c.toNat)).toNat) (by omega)
      rw [encodeChar_of_ascii hc, encodeChar_of_ascii (by omega), hnat, UInt8.ofNat_toNat]
      rfl
    · refine ⟨c, (map_congr_left fun byte hbyte => ?_).trans (List.map_id _)⟩
      exact hother byte (le_of_mem_encodeChar hc hbyte)
  choose g hg using hchar
  refine isSome_textOf_iff.mpr ⟨chars.map g, ?_⟩
  rw [map_flatMap, flatMap_map]
  exact flatMap_congr fun c _ => hg c

theorem isSome_textOf_of_ascii {bytes : List UInt8} (h : ∀ byte ∈ bytes, byte.toNat ≤ 127) :
    (textOf bytes).isSome = true := by
  refine isSome_textOf_iff.mpr ⟨bytes.map fun byte => Char.ofNat byte.toNat, ?_⟩
  rw [flatMap_map]
  have hbyte : ∀ byte ∈ bytes, utf8EncodeChar (Char.ofNat byte.toNat) = [byte] := by
    intro byte hmem
    have hle := h byte hmem
    have hnat : (Char.ofNat byte.toNat).toNat = byte.toNat := toNat_ofNat_of_ascii (by omega)
    rw [encodeChar_of_ascii (by omega), hnat, UInt8.ofNat_toNat]
  rw [flatMap_congr hbyte]
  simp

/-! ## The order of bytes -/

theorem digits_of_lt {n : Nat} (h : n < 2097152) :
    n = 262144 * (n / 262144 % 8) + 4096 * (n / 4096 % 64) + 64 * (n / 64 % 64) + n % 64 := by
  omega

/-- The bytes of a character decide its place among the characters, whatever follows. -/
theorem encodeChar_append_lt {c d : Char} (h : c < d) (after after' : List UInt8) :
    utf8EncodeChar c ++ after < utf8EncodeChar d ++ after' := by
  have hlt : c.val.toNat < d.val.toNat := UInt32.lt_iff_toNat_lt.mp h
  have hd : d.val.toNat.isValidChar := d.valid
  simp only [Nat.isValidChar] at hd
  have hc := digits_of_lt (n := c.val.toNat) (by omega)
  have hdigits := digits_of_lt (n := d.val.toNat) (by omega)
  have hbyte : ∀ n, (n % 64 + 128) % 2 ^ 8 = n % 64 + 128 ∧ (n % 32 + 192) % 2 ^ 8 = n % 32 + 192 ∧
      (n % 16 + 224) % 2 ^ 8 = n % 16 + 224 ∧ (n % 8 + 240) % 2 ^ 8 = n % 8 + 240 := by
    omega
  simp only [utf8EncodeChar]
  split_ifs <;>
    simp only [cons_append, nil_append, cons_lt_cons_iff, UInt8.lt_iff_toNat_lt,
      ← UInt8.toNat_inj, UInt8.toNat_ofNat', hbyte] <;> omega

theorem flatMap_encodeChar_lt {chars chars' : List Char} (h : chars < chars') :
    chars.flatMap utf8EncodeChar < chars'.flatMap utf8EncodeChar := by
  induction h with
  | @nil c chars =>
    obtain ⟨byte, bytes, hbytes⟩ := exists_cons_of_ne_nil (encodeChar_ne_nil c)
    simp [hbytes]
  | rel hlt =>
    rw [flatMap_cons, flatMap_cons]
    exact encodeChar_append_lt hlt _ _
  | cons _ ih => exact append_left_lt ih

/-- The order of bytes is the order of characters. -/
theorem toByteArray_lt_iff {s t : String} :
    s.toByteArray.data.toList < t.toByteArray.data.toList ↔ s < t := by
  simp only [toList_toByteArray, String.lt_iff_toList_lt]
  refine ⟨fun h => ?_, flatMap_encodeChar_lt⟩
  obtain hlt | heq | hgt := lt_trichotomy s.toList t.toList
  · exact hlt
  · exact absurd (heq ▸ h) (List.lt_irrefl _)
  · exact absurd h (List.lt_asymm (flatMap_encodeChar_lt hgt))

end Synch.Support
