import Synch.Support.Wire

/-!
# Decoders over a byte array and an offset

A cursor decoder keeps the whole input and counts how far it has read.  It
follows a list reader if both fail on the same inputs and otherwise read the
same values, up to a map from the reader's values to the decoder's.
-/

namespace Synch.Support

open List

/-- A decoder over an input and an offset into it. -/
abbrev Cursor (ε : Type) := StateT (ByteArray × Nat) (Except ε)

/-- The bytes a cursor has before it. -/
def ahead (input : ByteArray) (offset : Nat) : List UInt8 :=
  input.data.toList.drop offset

/-- The decoder fails where the list reader fails, and where that one reads a
value it reads the image of the value. -/
structure Follows
    {ε α β : Type} (image : α → β) (decode : Cursor ε β) (read : Reader α) : Prop where
  fails : ∀ input offset, offset ≤ input.size → read (ahead input offset) = none →
    ∃ reason, decode (input, offset) = .error reason
  reads : ∀ input offset value rest, offset ≤ input.size →
    read (ahead input offset) = some (value, rest) →
    ∃ next, decode (input, offset) = .ok (image value, (input, next)) ∧
      next ≤ input.size ∧ ahead input next = rest

section Follows

variable {ε α β γ δ : Type} {image : α → β} {image' : γ → δ}

theorem follows_pure (image : α → β) (value : α) :
    Follows image (pure (image value) : Cursor ε β) (pure value) where
  fails _ _ _ h := nomatch h
  reads input offset value' rest hoffset h := by
    cases h
    exact ⟨offset, rfl, hoffset, rfl⟩

theorem follows_throw (image : α → β) (reason : ε) :
    Follows image (throw reason : Cursor ε β) failure where
  fails _ _ _ _ := ⟨reason, rfl⟩
  reads _ _ _ _ _ h := nomatch h

variable {decode : Cursor ε β} {read : Reader α}

/-- One decoder after another.  The second may rely on the first value having
been read. -/
theorem Follows.bind_of_read {decodeNext : β → Cursor ε δ} {readNext : α → Reader γ}
    (h : Follows image decode read)
    (hnext : ∀ a input rest, read input = some (a, rest) →
      Follows image' (decodeNext (image a)) (readNext a)) :
    Follows image' (decode >>= decodeNext) (read >>= readNext) where
  fails := by
    intro input offset hoffset hnone
    cases hread : read (ahead input offset) with
    | none =>
      obtain ⟨reason, hreason⟩ := h.fails input offset hoffset hread
      refine ⟨reason, ?_⟩
      change (decode (input, offset)).bind _ = _
      rw [hreason]
      rfl
    | some result =>
      obtain ⟨a, rest⟩ := result
      rw [bind_of_some hread] at hnone
      obtain ⟨middle, hdecode, hmiddle, rfl⟩ :=
        h.reads input offset a rest hoffset hread
      obtain ⟨reason, hreason⟩ :=
        (hnext a _ _ hread).fails input middle hmiddle hnone
      refine ⟨reason, ?_⟩
      change (decode (input, offset)).bind _ = _
      rw [hdecode]
      exact hreason
  reads := by
    intro input offset b rest hoffset hsome
    obtain ⟨a, middleRest, hread, hrest⟩ := bind_eq_some hsome
    obtain ⟨middle, hdecode, hmiddle, rfl⟩ :=
      h.reads input offset a middleRest hoffset hread
    obtain ⟨next, hdecodeNext, hle, hahead⟩ :=
      (hnext a _ _ hread).reads input middle b rest hmiddle hrest
    refine ⟨next, ?_, hle, hahead⟩
    change (decode (input, offset)).bind _ = _
    rw [hdecode]
    exact hdecodeNext

theorem Follows.bind {decodeNext : β → Cursor ε δ} {readNext : α → Reader γ}
    (h : Follows image decode read)
    (hnext : ∀ a, Follows image' (decodeNext (image a)) (readNext a)) :
    Follows image' (decode >>= decodeNext) (read >>= readNext) :=
  h.bind_of_read fun a _ _ _ => hnext a

/-- The decoder may have the image of a value the reader computes further. -/
theorem Follows.map {decode : Cursor ε δ} (change : α → γ)
    (h : Follows (image' ∘ change) decode read) :
    Follows image' decode (read >>= fun a => pure (change a)) where
  fails := by
    intro input offset hoffset hnone
    apply h.fails input offset hoffset
    cases hread : read (ahead input offset) with
    | none => rfl
    | some result =>
      rw [bind_of_some hread] at hnone
      cases hnone
  reads := by
    intro input offset value rest hoffset hsome
    obtain ⟨a, middle, hread, hpure⟩ := bind_eq_some hsome
    cases hpure
    exact h.reads input offset a rest hoffset hread

/-- A check the reader makes too. -/
theorem follows_guard {condition : Prop} [Decidable condition] {reason : ε}
    {raised : β → Cursor ε δ} {decode : Cursor ε δ} {read : Reader γ}
    (h : ¬condition → Follows image' decode read) :
    Follows image' (if condition then throw reason >>= raised else decode)
      (if condition then failure else read) := by
  by_cases hcondition : condition
  · rw [if_pos hcondition, if_pos hcondition]
    exact follows_throw image' reason
  · rw [if_neg hcondition, if_neg hcondition]
    exact h hcondition

/-- A decoder that follows a reader accepts the same inputs. -/
theorem Follows.toOption_eq (h : Follows image decode read) (input : ByteArray) :
    (decode (input, 0)).toOption.map Prod.fst =
      (read input.data.toList).map fun result => image result.1 := by
  cases hread : read input.data.toList with
  | none =>
    obtain ⟨reason, hreason⟩ := h.fails input 0 (Nat.zero_le _) hread
    rw [hreason]
    rfl
  | some result =>
    obtain ⟨value, rest⟩ := result
    obtain ⟨next, hdecode, -⟩ := h.reads input 0 value rest (Nat.zero_le _) hread
    rw [hdecode]
    rfl

end Follows

theorem length_ahead (input : ByteArray) (offset : Nat) :
    (ahead input offset).length = input.size - offset := by
  rw [ahead, length_drop, Array.length_toList]
  rfl

theorem ahead_add (input : ByteArray) (offset count : Nat) :
    ahead input (offset + count) = (ahead input offset).drop count := by
  rw [ahead, ahead, drop_drop]

/-! ## How far an integer reaches -/

variable {top left shift acc n : Nat} {bytes rest : List UInt8}

/-- A successful read ends at the first byte or goes on after it. -/
theorem readVarintFrom_cons_eq_some {b : UInt8}
    (h : readVarintFrom top left shift acc (b :: bytes) = some (n, rest)) :
    (b.toNat < 128 ∧ ¬(left = 0 ∧ top < b.toNat) ∧
        n = acc + b.toNat * 2 ^ shift ∧ rest = bytes) ∨
      (¬b.toNat < 128 ∧ ∃ fewer, left = fewer + 1 ∧
        readVarintFrom top fewer (shift + 7) (acc + b.toNat % 128 * 2 ^ shift) bytes =
          some (n, rest)) := by
  rw [readVarintFrom_cons] at h
  split at h
  · rename_i hlast
    split at h
    · cases h
    · rename_i hover
      cases h
      exact .inl ⟨hlast, hover, rfl, rfl⟩
  · rename_i hlast
    cases left with
    | zero => cases h
    | succ fewer => exact .inr ⟨hlast, fewer, rfl, h⟩

/-- An integer is read off some first bytes, whatever comes after them. -/
theorem readVarintFrom_local (h : readVarintFrom top left shift acc bytes = some (n, rest)) :
    ∃ used, bytes = used ++ rest ∧ used.length ≤ left + 1 ∧
      ∀ suffix, readVarintFrom top left shift acc (used ++ suffix) = some (n, suffix) := by
  induction bytes generalizing left shift acc with
  | nil =>
    rw [readVarintFrom_nil] at h
    cases h
  | cons b bytes ih =>
    obtain ⟨hlast, hover, rfl, rfl⟩ | ⟨hlast, fewer, rfl, hmore⟩ :=
      readVarintFrom_cons_eq_some h
    · refine ⟨[b], rfl, by simp, ?_⟩
      intro suffix
      rw [singleton_append, readVarintFrom_cons, if_pos hlast, if_neg hover]
    · obtain ⟨used, rfl, hlength, hlocal⟩ := ih hmore
      refine ⟨b :: used, rfl, by simpa using hlength, ?_⟩
      intro suffix
      rw [cons_append, readVarintFrom_cons, if_neg hlast]
      exact hlocal suffix

/-- Ten bytes decide an integer. -/
theorem readVarint_take (bytes : List UInt8) :
    readVarint bytes = (readVarint (bytes.take 10)).map fun read =>
        (read.1, bytes.drop ((bytes.take 10).length - read.2.length)) := by
  cases hread : readVarint bytes with
  | some result =>
    obtain ⟨n, rest⟩ := result
    obtain ⟨used, rfl, hlength, hlocal⟩ := readVarintFrom_local hread
    have htaken : (used ++ rest).take 10 = used ++ rest.take (10 - used.length) := by
      rw [take_append, take_of_length_le hlength]
    have hshort : readVarint (used ++ rest.take (10 - used.length)) =
        some (n, rest.take (10 - used.length)) := hlocal _
    rw [htaken, hshort, length_append]
    simp
  | none =>
    cases hshort : readVarint (bytes.take 10) with
    | none => rfl
    | some result =>
      obtain ⟨n, rest⟩ := result
      obtain ⟨used, hused, -, hlocal⟩ := readVarintFrom_local hshort
      have hwhole : readVarint (used ++ (rest ++ bytes.drop 10)) =
          some (n, rest ++ bytes.drop 10) := hlocal _
      rw [← append_assoc, ← hused, take_append_drop, hread] at hwhole
      cases hwhole

/-- The groups that are left bound what an integer adds. -/
theorem readVarintFrom_value (htop : top < 128)
    (h : readVarintFrom top left shift acc bytes = some (n, rest)) :
    ∃ k < (top + 1) * 128 ^ left, n = acc + k * 2 ^ shift := by
  induction bytes generalizing left shift acc with
  | nil =>
    rw [readVarintFrom_nil] at h
    cases h
  | cons b bytes ih =>
    obtain ⟨hlast, hover, rfl, rfl⟩ | ⟨hlast, fewer, rfl, hmore⟩ :=
      readVarintFrom_cons_eq_some h
    · refine ⟨b.toNat, ?_, rfl⟩
      cases left with
      | zero =>
        omega
      | succ left =>
        calc
          b.toNat < 128 := hlast
          _ ≤ 128 ^ (left + 1) := Nat.le_self_pow (by omega) 128
          _ ≤ (top + 1) * 128 ^ (left + 1) := Nat.le_mul_of_pos_left _ (by omega)
    · obtain ⟨k, hk, rfl⟩ := ih hmore
      refine ⟨b.toNat % 128 + 128 * k, ?_, by ring⟩
      calc
        b.toNat % 128 + 128 * k < 128 * ((top + 1) * 128 ^ fewer) := by omega
        _ = (top + 1) * 128 ^ (fewer + 1) := by ring

theorem readVarint_lt (h : readVarint bytes = some (n, rest)) : n < 2 ^ 64 := by
  obtain ⟨k, hk, rfl⟩ := readVarintFrom_value (by decide) h
  simpa using hk

theorem readVarint32_lt (h : readVarint32 bytes = some (n, rest)) : n < 2 ^ 32 := by
  obtain ⟨k, hk, rfl⟩ := readVarintFrom_value (by decide) h
  simpa using hk

/-- More room reads the same integer. -/
theorem readVarintFrom_widen {top' left' : Nat} (hroom : left < left')
    (h : readVarintFrom top left shift acc bytes = some (n, rest)) :
    readVarintFrom top' left' shift acc bytes = some (n, rest) := by
  induction bytes generalizing left left' shift acc with
  | nil =>
    rw [readVarintFrom_nil] at h
    cases h
  | cons b bytes ih =>
    obtain ⟨hlast, hover, rfl, rfl⟩ | ⟨hlast, fewer, rfl, hmore⟩ :=
      readVarintFrom_cons_eq_some h
    · rw [readVarintFrom_cons, if_pos hlast, if_neg (by omega)]
    · obtain ⟨fewer', rfl⟩ : ∃ fewer', left' = fewer' + 1 := ⟨left' - 1, by omega⟩
      rw [readVarintFrom_cons, if_neg hlast]
      exact ih (Nat.lt_of_succ_lt_succ hroom) hmore

theorem readVarint_of_readVarint32 (h : readVarint32 bytes = some (n, rest)) :
    readVarint bytes = some (n, rest) :=
  readVarintFrom_widen (by decide) h

end Synch.Support
