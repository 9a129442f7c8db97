import Synch.Support.Cursor

/-!
# Published record decoding

The primitive decoders of the verified core.  Each keeps the record and an
offset into it; integers go through the shared parser of at most ten octets.
Every one of them follows the list reader of the same shape.
-/

namespace Synch.Records

open List Synch.Support

/-- A parser answers its value and the octets after it, or why it stopped. -/
abbrev Parser (α : Type) := List UInt8 → Except String (α × List UInt8)

def parseByte : Parser UInt8
  | [] => .error "unexpected end of node"
  | b :: rest => .ok (b, rest)

/-- The tenth byte of a length may carry only the top bit of a word. -/
def varintAux : Nat → Nat → Nat → Nat → Parser Nat
  | 0, _, _, _, _ => .error "varint overflow"
  | fuel + 1, limit, shift, acc, input => do
    let (b, rest) ← parseByte input
    let b := b.toNat
    if b > limit then .error "varint overflow"
    else
      let acc := acc + (b % 128) * 2 ^ shift
      if b < 128 then .ok (acc, rest)
      else varintAux fuel (if fuel == 1 then 1 else 255) (shift + 7) acc rest

def parseLength : Parser Nat := varintAux 10 255 0 0

/-! ## The record decoders -/

abbrev Decoder := Cursor String

def byte : Decoder UInt8 := fun (input, offset) =>
  match input[offset]? with
  | none => .error "unexpected end of record"
  | some value => .ok (value, (input, offset + 1))

def uint : Decoder Nat := fun (input, offset) => do
  let octets := input.extract offset (min input.size (offset + 10))
  let (value, rest) ← parseLength octets.data.toList
  return (value, (input, offset + octets.size - rest.length))

def sint : Decoder Int64 := do
  let n ← uint
  return Int64.ofInt (if n % 2 == 0 then Int.ofNat (n / 2) else -(Int.ofNat (n / 2)) - 1)

def bytes (count : Nat) : Decoder ByteArray := fun (input, offset) =>
  if count > input.size - offset then .error "unexpected end of record"
  else .ok (input.extract offset (offset + count), (input, offset + count))

def string : Decoder String := do
  let raw ← bytes (← uint)
  match String.fromUTF8? raw with
  | some text => return text
  | none => throw "invalid UTF-8"

def optional {α : Type} (decode : Decoder α) : Decoder (Option α) := do
  match ← byte with
  | 0 => return none
  | 1 => return some (← decode)
  | _ => throw "invalid option tag"

def strings : Nat → List String → Decoder (List String)
  | 0, acc => pure acc.reverse
  | n + 1, acc => do strings n ((← string) :: acc)

/-! ## Following the list readers -/

theorem parseByte_cons (b : UInt8) (rest : List UInt8) :
    parseByte (b :: rest) = .ok (b, rest) := rfl

theorem varintAux_toOption (left shift acc : Nat) (input : List UInt8) :
    (varintAux (left + 1) (if left = 0 then 1 else 255) shift acc input).toOption =
      readVarintFrom 1 left shift acc input := by
  induction input generalizing left shift acc with
  | nil =>
    rw [readVarintFrom_nil]
    rfl
  | cons b input ih =>
    have hbyte : b.toNat < 256 := b.toNat_lt
    rw [readVarintFrom_cons, varintAux, parseByte_cons]
    change Except.toOption (if b.toNat > _ then _ else
      if b.toNat < 128 then _ else _) = _
    cases left with
    | zero =>
      by_cases hone : b.toNat ≤ 1
      · rw [if_pos rfl, if_neg (by omega), if_pos (by omega), if_pos (by omega),
          if_neg (by omega), Nat.mod_eq_of_lt (by omega)]
        rfl
      · rw [if_pos rfl, if_pos (by omega)]
        by_cases hlast : b.toNat < 128
        · rw [if_pos hlast, if_pos (by omega)]
          rfl
        · rw [if_neg hlast]
          rfl
    | succ left =>
      rw [if_neg (by omega : ¬(left + 1 = 0)), if_neg (by omega)]
      by_cases hlast : b.toNat < 128
      · rw [if_pos hlast, if_pos hlast, if_neg (by omega), Nat.mod_eq_of_lt hlast]
        rfl
      · have hlimit : (if (left + 1 == 1) = true then 1 else 255) =
            (if left = 0 then 1 else 255) := by
          by_cases hzero : left = 0
          · subst hzero
            rfl
          · rw [if_neg hzero, if_neg (by simpa using hzero)]
        rw [if_neg hlast, if_neg hlast, hlimit]
        exact ih left (shift + 7) (acc + b.toNat % 128 * 2 ^ shift)

theorem parseLength_toOption (input : List UInt8) :
    (parseLength input).toOption = readVarint input :=
  varintAux_toOption 9 0 0 input

theorem follows_byte : Follows id byte readByte where
  fails := by
    intro input offset hoffset hnone
    have hend : input.size - offset = 0 := by
      rw [← length_ahead]
      cases hahead : ahead input offset with
      | nil => rfl
      | cons b rest =>
        rw [hahead] at hnone
        cases hnone
    have hget : input[offset]? = none := getElem?_neg input offset (by omega)
    exact ⟨"unexpected end of record", by simp only [byte, hget]⟩
  reads := by
    intro input offset value rest hoffset hsome
    have hahead : ahead input offset = value :: rest := by
      cases hahead : ahead input offset with
      | nil =>
        rw [hahead] at hsome
        cases hsome
      | cons b bytes =>
        rw [hahead] at hsome
        cases hsome
        rfl
    have hsize : offset < input.size := by
      have hlength := length_ahead input offset
      rw [hahead, length_cons] at hlength
      omega
    have hdrop : input.data.toList.drop offset = value :: rest := hahead
    rw [drop_eq_getElem_cons (by simpa using hsize)] at hdrop
    obtain ⟨hvalue, hrest⟩ := cons.inj hdrop
    have hget : input[offset]? = some value := by
      rw [getElem?_pos input offset hsize, ← hvalue]
      rfl
    exact ⟨offset + 1, by simp only [byte, hget, id], hsize, hrest⟩

variable (input : ByteArray) (offset : Nat)

theorem data_extract (start stop : Nat) :
    (input.extract start stop).data.toList = (ahead input start).take (stop - start) := by
  rw [ByteArray.data_extract, Array.toList_extract]
  rfl

theorem octets_eq :
    (input.extract offset (min input.size (offset + 10))).data.toList =
      (ahead input offset).take 10 := by
  rw [data_extract]
  by_cases hlong : offset + 10 ≤ input.size
  · rw [Nat.min_eq_right hlong, Nat.add_sub_cancel_left]
  · have hlength := length_ahead input offset
    rw [Nat.min_eq_left (by omega), take_of_length_le (by omega), take_of_length_le (by omega)]

theorem size_octets :
    (input.extract offset (min input.size (offset + 10))).size =
      ((ahead input offset).take 10).length := by
  rw [← octets_eq, Array.length_toList]
  rfl

theorem toOption_eq_none {ε α : Type} {result : Except ε α} (h : result.toOption = none) :
    ∃ reason, result = .error reason := by
  cases result with
  | error reason => exact ⟨reason, rfl⟩
  | ok value => cases h

theorem toOption_eq_some {ε α : Type} {result : Except ε α} {value : α}
    (h : result.toOption = some value) : result = .ok value := by
  cases result with
  | error reason => cases h
  | ok value' =>
    cases h
    rfl

theorem follows_uint : Follows id uint readVarint where
  fails := by
    intro input offset hoffset hnone
    rw [readVarint_take, Option.map_eq_none_iff] at hnone
    rw [← parseLength_toOption, ← octets_eq] at hnone
    obtain ⟨reason, hreason⟩ := toOption_eq_none hnone
    refine ⟨reason, ?_⟩
    rw [uint, hreason]
    rfl
  reads := by
    intro input offset value rest hoffset hsome
    rw [readVarint_take, Option.map_eq_some_iff] at hsome
    obtain ⟨⟨n, octetsLeft⟩, hread, hresult⟩ := hsome
    cases hresult
    obtain ⟨used, hused, -⟩ := readVarintFrom_local hread
    have hlength := congrArg List.length hused
    rw [length_append] at hlength
    have hten : ((ahead input offset).take 10).length ≤ input.size - offset := by
      rw [← length_ahead]
      exact length_take_le' 10 _
    rw [← parseLength_toOption, ← octets_eq] at hread
    have hparse := toOption_eq_some hread
    refine ⟨offset + ((ahead input offset).take 10).length - octetsLeft.length, ?_, ?_, ?_⟩
    · rw [uint, hparse, ← size_octets]
      rfl
    · omega
    · rw [Nat.add_sub_assoc (by omega), ahead_add]

theorem follows_sint : Follows id sint readSigned := by
  apply follows_uint.bind
  intro n
  have hvalue : (if (n % 2 == 0) = true then Int.ofNat (n / 2)
      else -(Int.ofNat (n / 2)) - 1) = unfoldSign n := by
    by_cases heven : n % 2 = 0
    · rw [unfoldSign, if_pos heven, if_pos (by simpa using heven)]
      rfl
    · rw [unfoldSign, if_neg heven, if_neg (by simpa using heven)]
      rfl
  rw [id, hvalue]
  exact follows_pure id (Int64.ofInt (unfoldSign n))

/-- A run of bytes as the decoder holds it. -/
def arrayOf (bytes : List UInt8) : ByteArray :=
  ⟨bytes.toArray⟩

theorem extract_eq_arrayOf (count : Nat) :
    input.extract offset (offset + count) = arrayOf ((ahead input offset).take count) := by
  have hlist := data_extract input offset (offset + count)
  rw [Nat.add_sub_cancel_left] at hlist
  rw [← hlist]
  rfl

theorem follows_bytes (count : Nat) : Follows arrayOf (bytes count) (readBytes count) where
  fails := by
    intro input offset hoffset hnone
    have hlength := length_ahead input offset
    refine ⟨"unexpected end of record", ?_⟩
    by_cases hshort : (ahead input offset).length < count
    · rw [bytes, if_pos (by omega)]
    · rw [readBytes, if_neg hshort] at hnone
      cases hnone
  reads := by
    intro input offset value rest hoffset hsome
    have hlength := length_ahead input offset
    by_cases hshort : (ahead input offset).length < count
    · rw [readBytes, if_pos hshort] at hsome
      cases hsome
    · rw [readBytes, if_neg hshort] at hsome
      cases hsome
      refine ⟨offset + count, ?_, by omega, ahead_add input offset count⟩
      rw [bytes, if_neg (by omega), extract_eq_arrayOf]

theorem length_of_readBytes {count : Nat} {input value rest : List UInt8}
    (h : readBytes count input = some (value, rest)) : value.length = count := by
  by_cases hshort : input.length < count
  · rw [readBytes, if_pos hshort] at h
    cases h
  · rw [readBytes, if_neg hshort] at h
    cases h
    rw [length_take]
    omega

theorem size_of_textOf {bytes : List UInt8} {text : String} (h : textOf bytes = some text) :
    text.utf8ByteSize = bytes.length := by
  unfold textOf String.fromUTF8? at h
  split at h
  · cases h
    rfl
  · cases h

theorem follows_string : Follows Text.value string readText := by
  apply follows_uint.bind_of_read
  intro count countInput countRest hcount
  apply (follows_bytes count).bind_of_read
  intro raw rawInput rawRest hraw
  cases htext : textOf raw with
  | none =>
    have hdecode : String.fromUTF8? (arrayOf raw) = none := htext
    rw [hdecode]
    exact follows_throw _ _
  | some text =>
    have hdecode : String.fromUTF8? (arrayOf raw) = some text := htext
    -- the length just read bounds the text, so the reader keeps it
    have hsize : text.utf8ByteSize < 2 ^ 64 := by
      rw [size_of_textOf htext, length_of_readBytes hraw]
      exact readVarint_lt hcount
    rw [hdecode]
    change Follows Text.value _ (dite _ _ _)
    rw [dif_pos hsize]
    exact follows_pure Text.value ⟨text, hsize⟩

theorem follows_optional {α β : Type} {image : α → β} {decode : Decoder β} {read : Reader α}
    (h : Follows image decode read) :
    Follows (Option.map image) (optional decode) (readOption read) := by
  apply follows_byte.bind
  intro tag
  rw [id]
  by_cases hzero : tag = 0
  · rw [hzero]
    exact follows_pure (Option.map image) none
  by_cases hone : tag = 1
  · rw [hone]
    apply h.bind
    intro value
    exact follows_pure (Option.map image) (some value)
  simp only
  exact follows_throw _ _

theorem follows_strings (n : Nat) (acc : List String) :
    Follows (fun texts => acc.reverse ++ texts.map Text.value)
      (strings n acc) (readMany readText n) := by
  induction n generalizing acc with
  | zero =>
    have hpure := follows_pure (ε := String)
      (fun texts : List Text => acc.reverse ++ texts.map Text.value) []
    rwa [map_nil, append_nil] at hpure
  | succ n ih =>
    apply follows_string.bind
    intro text
    apply Follows.map
    have hnext := ih (text.value :: acc)
    simpa [Function.comp_def] using hnext

end Synch.Records
