import Synch.Support.Maps
import Synch.Transparency.ProofRecords

/-!
# Reassembling zone-key records

A document and its text records determine each other, whatever order the records come in and
whatever else is served beside them.
-/

namespace Synch.Transparency

open Std Synch.Support
open List

/-! ## The binary form -/

namespace ByteReader

variable {bytes rest : List UInt8} {what : String}

theorem bind_eq_ok_iff {α β : Type} {first : ByteReader α} {rest : α → ByteReader β}
    {result : β × List UInt8} :
    (first >>= rest) bytes = .ok result ↔
      ∃ a left, first bytes = .ok (a, left) ∧ rest a left = .ok result := by
  change (first bytes).bind _ = _ ↔ _
  cases first bytes with
  | error reason => simp [Except.bind]
  | ok pair =>
    obtain ⟨a, left⟩ := pair
    simp [Except.bind]

theorem pure_eq_ok_iff {α : Type} {a : α} {result : α × List UInt8} :
    (pure a : ByteReader α) bytes = .ok result ↔ (a, bytes) = result := by
  change (Except.ok (a, bytes) : Except ProofError _) = .ok result ↔ _
  rw [Except.ok.injEq]

theorem take_eq_ok_iff {length : Nat} {run : List UInt8} :
    take length what bytes = .ok (run, rest) ↔ bytes = run ++ rest ∧ run.length = length := by
  simp only [take]
  constructor
  · intro h
    split at h
    · cases h
    · rename_i hlength
      cases h
      exact ⟨(take_append_drop length bytes).symm, length_take_of_le (Nat.not_lt.mp hlength)⟩
  · rintro ⟨rfl, rfl⟩
    rw [if_neg (by simp), take_left, drop_left]

theorem u8_eq_ok_iff {byte : UInt8} : u8 what bytes = .ok (byte, rest) ↔ bytes = byte :: rest := by
  simp only [u8, bind_eq_ok_iff, take_eq_ok_iff, pure_eq_ok_iff, Prod.mk.injEq]
  constructor
  · rintro ⟨run, left, ⟨rfl, hlength⟩, rfl, rfl⟩
    obtain ⟨only, rfl⟩ := length_eq_one_iff.mp hlength
    rfl
  · rintro rfl
    exact ⟨[byte], rest, ⟨rfl, rfl⟩, rfl, rfl⟩

/-- What is read after a refusal. -/
theorem refusing_eq_ok_iff {α : Type} {refused : Prop} [Decidable refused] {reason : ProofError}
    {read : ByteReader α} {result : α × List UInt8} :
    (if refused then throw reason else read) bytes = .ok result ↔
      ¬refused ∧ read bytes = .ok result := by
  split_ifs with h
  · exact ⟨nofun, fun hread => absurd h hread.1⟩
  · exact ⟨fun hread => ⟨h, hread⟩, And.right⟩

theorem number_eq_ok_iff {count : Nat} {n : Nat} :
    (do let run ← take count what; return beValue run : ByteReader Nat) bytes = .ok (n, rest) ↔
      bytes = beBytes count n ++ rest ∧ n < 256 ^ count := by
  simp only [bind_eq_ok_iff, take_eq_ok_iff, pure_eq_ok_iff, Prod.mk.injEq]
  constructor
  · rintro ⟨run, left, ⟨rfl, hlength⟩, hvalue, rfl⟩
    obtain ⟨hrun, hn⟩ := (eq_beBytes_iff hlength).mpr hvalue
    exact ⟨by rw [hrun], hn⟩
  · rintro ⟨rfl, hn⟩
    exact ⟨_, _, ⟨rfl, length_beBytes count n⟩, beValue_beBytes hn, rfl⟩

theorem u64_eq_ok_iff {n : Nat} :
    u64 what bytes = .ok (n, rest) ↔ bytes = beBytes 8 n ++ rest ∧ n < 2 ^ 64 :=
  number_eq_ok_iff

theorem array32_eq_ok_iff {hash : Hash} :
    array32 what bytes = .ok (hash, rest) ↔ bytes = hash.bytes ++ rest := by
  simp only [array32, bind_eq_ok_iff, take_eq_ok_iff, pure_eq_ok_iff, Prod.mk.injEq]
  constructor
  · rintro ⟨run, left, ⟨rfl, hlength⟩, hhash, rfl⟩
    rw [dif_pos hlength] at hhash
    rw [← hhash]
  · rintro rfl
    exact ⟨hash.bytes, rest, ⟨rfl, hash.length_bytes⟩, dif_pos hash.length_bytes, rfl⟩

theorem blob_eq_ok_iff {run : List UInt8} :
    blob what bytes = .ok (run, rest) ↔ bytes = blob16 run ++ rest ∧ run.length ≤ 65535 := by
  unfold blob u16
  rw [bind_eq_ok_iff]
  simp only [number_eq_ok_iff, take_eq_ok_iff, blob16]
  constructor
  · rintro ⟨n, left, ⟨rfl, hn⟩, rfl, rfl⟩
    exact ⟨by rw [append_assoc], by omega⟩
  · rintro ⟨rfl, hlength⟩
    exact ⟨run.length, run ++ rest, ⟨by rw [append_assoc], by omega⟩, rfl, rfl⟩

theorem hops_eq_ok_iff {count : Nat} {path : List Hash} :
    hops count bytes = .ok (path, rest) ↔
      bytes = path.flatMap Hash.bytes ++ rest ∧ path.length = count := by
  induction count generalizing bytes rest path with
  | zero =>
    simp only [hops, pure_eq_ok_iff, Prod.mk.injEq, length_eq_zero_iff]
    constructor
    · rintro ⟨rfl, rfl⟩
      exact ⟨rfl, rfl⟩
    · rintro ⟨rfl, rfl⟩
      exact ⟨rfl, rfl⟩
  | succ count ih =>
    simp only [hops, bind_eq_ok_iff, array32_eq_ok_iff, ih, pure_eq_ok_iff, Prod.mk.injEq]
    constructor
    · rintro ⟨hash, left, rfl, others, left', ⟨rfl, rfl⟩, rfl, rfl⟩
      exact ⟨by rw [flatMap_cons, append_assoc], rfl⟩
    · rintro ⟨rfl, hlength⟩
      obtain ⟨hash, others, rfl⟩ := exists_cons_of_length_eq_add_one hlength
      exact ⟨hash, others.flatMap Hash.bytes ++ rest,
        by rw [flatMap_cons, append_assoc], others, rest,
        ⟨rfl, Nat.succ.inj hlength⟩, rfl, rfl⟩

theorem finish_eq_ok_iff {done : Unit} :
    finish bytes = .ok (done, rest) ↔ bytes = [] ∧ rest = [] := by
  simp only [finish, length_eq_zero_iff]
  constructor
  · intro h
    split at h
    · rename_i hnil
      cases h
      exact ⟨hnil, hnil⟩
    · cases h
  · rintro ⟨rfl, rfl⟩
    rfl

end ByteReader

open ByteReader in
/-- Bytes decode to a record exactly when they are its encoding. -/
theorem decode_eq_ok_iff {bytes : List UInt8} {proof : RekorProof} :
    RekorProof.decode bytes = .ok proof ↔ proof.encode = some bytes ∧ proof.logIndex < 2 ^ 64 := by
  have hread : RekorProof.decode bytes = .ok proof ↔
      ∃ left, readProof bytes = .ok (proof, left) := by
    rw [RekorProof.decode]
    cases readProof bytes <;> simp [Except.map, Prod.ext_iff]
  simp only [hread, readProof, ByteReader.bind_eq_ok_iff, u8_eq_ok_iff, refusing_eq_ok_iff,
    array32_eq_ok_iff, u64_eq_ok_iff, blob_eq_ok_iff, hops_eq_ok_iff, finish_eq_ok_iff,
    ByteReader.pure_eq_ok_iff, Prod.mk.injEq, not_not]
  constructor
  · rintro ⟨_, _, _, rfl, rfl, logId, _, rfl, logIndex, _, ⟨rfl, hlogIndex⟩, statement, _,
      ⟨rfl, hstatement⟩, body, _, ⟨rfl, hbody⟩, checkpoint, _, ⟨rfl, hcheckpoint⟩, count, _, rfl,
      path, _, ⟨rfl, hpath⟩, _, _, ⟨rfl, rfl⟩, rfl, rfl⟩
    have hbyte := count.toNat_lt
    refine ⟨?_, hlogIndex⟩
    rw [RekorProof.encode, if_neg (by dsimp only; omega), RekorProof.encodeUnchecked, hpath,
      UInt8.ofNat_toNat]
    simp only [append_assoc, append_nil, cons_append, nil_append]
  · rintro ⟨hencode, hlogIndex⟩
    rw [RekorProof.encode, Option.ite_none_left_eq_some, Option.some.injEq] at hencode
    obtain ⟨hshort, rfl⟩ := hencode
    have hcount : (UInt8.ofNat proof.inclusionPath.length).toNat = proof.inclusionPath.length := by
      rw [UInt8.toNat_ofNat']
      omega
    rw [RekorProof.encodeUnchecked]
    simp only [append_assoc, cons_append, nil_append]
    exact ⟨[], _, _, rfl, rfl, _, _, rfl, _, _, ⟨rfl, hlogIndex⟩, _, _, ⟨rfl, by omega⟩, _, _,
      ⟨rfl, by omega⟩, _, _, ⟨rfl, by omega⟩, _, _, rfl, _, [], ⟨(append_nil _).symm, hcount.symm⟩,
      (), [], ⟨rfl, rfl⟩, rfl, rfl⟩

/-! ## The text form -/

theorem urlLetter_spec : ∀ n < 64,
    isWhiteSpace (toUrlLetter (base64Digit n)) = false ∧
      toUrlLetter (base64Digit n) ≠ '=' ∧ toUrlLetter (base64Digit n) ≠ '+' ∧
      toUrlLetter (base64Digit n) ≠ '/' ∧
      ofUrlLetter (toUrlLetter (base64Digit n)) = base64Digit n := by
  decide +kernel

theorem forall_urlLetters {p : Char → Prop} (h : ∀ n < 64, p (toUrlLetter (base64Digit n)))
    (bytes : List UInt8) : ∀ c ∈ base64urlEncode bytes, p c :=
  forall_mem_map.mpr (forall_digits h bytes)

theorem base64urlDecode_encode (explain : List Char → String) (bytes : List UInt8) :
    base64urlDecode explain (base64urlEncode bytes) = .ok bytes := by
  have hkept : (base64urlEncode bytes).filter (fun c => !isWhiteSpace c && c ≠ '=') =
      base64urlEncode bytes := by
    rw [filter_eq_self]
    refine forall_urlLetters (fun n hn => ?_) bytes
    simp [(urlLetter_spec n hn).1, (urlLetter_spec n hn).2.1]
  have hsafe : (base64urlEncode bytes).any (fun c => c = '+' ∨ c = '/') = false := by
    rw [any_eq_false]
    refine forall_urlLetters (fun n hn => ?_) bytes
    simp [(urlLetter_spec n hn).2.2.1, (urlLetter_spec n hn).2.2.2.1]
  have hback : (base64urlEncode bytes).map ofUrlLetter = base64Digits bytes := by
    rw [base64urlEncode, map_map, map_congr_left (g := id), List.map_id]
    exact forall_digits (fun n hn => (urlLetter_spec n hn).2.2.2.2) bytes
  rw [base64urlDecode, orRefuse_eq_ok_iff, hkept, hsafe, hback]
  exact base64Bytes_digits bytes

/-- A part as the publisher writes one. -/
structure Part.WellFormed (part : Part) : Prop where
  group : part.group.toList.length = 8
  lower : ∀ c ∈ part.group.toList, isHexDigit c = true ∧ isWhiteSpace c = false ∧ c.toLower = c
  index : 1 ≤ part.index
  total : part.index ≤ part.total
  small : part.total ≤ 255
  chunk : IsWord isWhiteSpace part.chunk

/-- A number of at most three digits, written and read. -/
theorem numeral_spec : ∀ n < 256,
    parseU64 (toString n).toList = some n ∧
      ((toString n).toList.all fun c => !isWhiteSpace c && c ≠ '/') = true := by
  decide +kernel

theorem Part.WellFormed.numerals {part : Part} (h : part.WellFormed) :
    (parseU64 (toString part.index).toList = some part.index ∧
        ∀ c ∈ (toString part.index).toList, isWhiteSpace c = false ∧ c ≠ '/') ∧
      parseU64 (toString part.total).toList = some part.total ∧
        ∀ c ∈ (toString part.total).toList, isWhiteSpace c = false ∧ c ≠ '/' := by
  have htotal := h.total
  have hsmall := h.small
  have hindex := numeral_spec part.index (by omega)
  have htotal := numeral_spec part.total (by omega)
  simpa using And.intro hindex htotal

theorem Part.toList_text (part : Part) :
    part.text.toList = proofTxtPrelude.toList ++
      [part.group.toList, (toString part.index).toList ++ '/' :: (toString part.total).toList,
        part.chunk].flatMap (fun word => ' ' :: word) := by
  simp [Part.text, String.toList_append]

theorem Part.WellFormed.words_text {part : Part} (h : part.WellFormed) :
    words isWhiteSpace part.text.toList = [proofTxtPrelude.toList, part.group.toList,
      (toString part.index).toList ++ '/' :: (toString part.total).toList, part.chunk] := by
  rw [Part.toList_text]
  have hprelude : (proofTxtPrelude.toList.all fun c => !isWhiteSpace c) = true := by decide
  apply words_flatMap (by decide)
  · exact ⟨by decide, fun c hc => by simpa using all_eq_true.mp hprelude c hc⟩
  · simp only [forall_mem_cons]
    refine ⟨⟨?_, fun c hc => (h.lower c hc).2.1⟩, ⟨by simp, ?_⟩, h.chunk, by simp⟩
    · intro hnil
      have hlength := h.group
      rw [hnil] at hlength
      cases hlength
    · intro c hc
      rw [mem_append, mem_cons] at hc
      obtain hc | rfl | hc := hc
      · exact (h.numerals.1.2 c hc).1
      · decide
      · exact (h.numerals.2.2 c hc).1

/-- A part is read back as it was written. -/
theorem Part.WellFormed.parseChunk_text {part : Part} (h : part.WellFormed) :
    parseChunk part.text = .ok part := by
  have hslash : '/' ∉ (toString part.index).toList := fun hmem => (h.numerals.1.2 _ hmem).2 rfl
  have hhex : part.group.toList.all isHexDigit = true :=
    all_eq_true.mpr fun c hc => (h.lower c hc).1
  have hlower : String.ofList (part.group.toList.map Char.toLower) = part.group := by
    rw [map_congr_left (g := id) fun c hc => (h.lower c hc).2.2, List.map_id, String.ofList_toList]
  simp only [parseChunk, h.words_text, bind_eq_ok_iff, orRefuse_eq_ok_iff, refuseIf_eq_ok_iff,
    not_not]
  refine ⟨(), rfl, _, rfl, (), ⟨h.group, hhex⟩, _, rfl, _, splitOnce_append_cons hslash _, _,
    h.numerals.1.1, _, h.numerals.2.1, (), ?_, _, rfl, (), rfl, ?_⟩
  · have hfirst := h.index
    have hlast := h.total
    have hsmall := h.small
    omega
  · rw [hlower]
    rfl

/-! ## The parts of a document -/

section Parts

variable {sha256 : List UInt8 → Hash} {explain : List Char → String}

theorem digitChar_spec : ∀ n < 16,
    isHexDigit (Nat.digitChar n) = true ∧ isWhiteSpace (Nat.digitChar n) = false ∧
      (Nat.digitChar n).toLower = Nat.digitChar n := by
  decide +kernel

theorem groupOf_spec (sha256 : List UInt8 → Hash) (encoded : List UInt8) :
    (groupOf sha256 encoded).toList.length = 8 ∧
      ∀ c ∈ (groupOf sha256 encoded).toList,
        isHexDigit c = true ∧ isWhiteSpace c = false ∧ c.toLower = c := by
  rw [groupOf, hexLower, String.toList_ofList]
  constructor
  · simp [length_flatMap, hexDigits, (sha256 encoded).length_bytes]
  · intro c hc
    obtain ⟨byte, -, hc⟩ := mem_flatMap.mp hc
    have hbyte := byte.toNat_lt
    simp only [hexDigits, mem_cons, not_mem_nil, or_false] at hc
    obtain rfl | rfl := hc
    · exact digitChar_spec _ (by omega)
    · exact digitChar_spec _ (by omega)

theorem length_base64Digits_le (bytes : List UInt8) :
    3 * (base64Digits bytes).length ≤ 4 * (bytes.length + 2) := by
  induction bytes using base64Digits.induct with
  | case1 a b c rest ih =>
    simp only [base64Digits, length_cons]
    omega
  | case2 a b => simp [base64Digits]
  | case3 a => simp [base64Digits]
  | case4 => simp [base64Digits]

variable {proof : RekorProof} {encoded : List UInt8} {parts : List Part}

theorem length_encode_le (h : proof.encode = some encoded) :
    43 ≤ encoded.length ∧ encoded.length ≤ 205000 := by
  rw [RekorProof.encode, Option.ite_none_left_eq_some, Option.some.injEq] at h
  obtain ⟨hshort, rfl⟩ := h
  have hpath : (proof.inclusionPath.flatMap Hash.bytes).length =
      proof.inclusionPath.length * 32 := by
    simp [length_flatMap, Hash.length_bytes]
  simp only [RekorProof.encodeUnchecked, blob16, length_append, length_singleton,
    length_beBytes, proof.logId.length_bytes, hpath]
  omega

theorem length_partsOf (encoded : List UInt8) :
    (partsOf sha256 encoded).length =
      (chunksOf proofChunkChars (base64urlEncode encoded)).length := by
  rw [partsOf, length_mapIdx]

/-- Every record that has an encoding fits into the parts that can be numbered. -/
theorem length_partsOf_le (h : proof.encode = some encoded) :
    (partsOf sha256 encoded).length ≤ 255 := by
  have hcount := length_chunksOf_mul_le proofChunkChars (base64urlEncode encoded)
  have hdigits := length_base64Digits_le encoded
  have hlength := (length_encode_le h).2
  rw [base64urlEncode, length_map] at hcount
  rw [length_partsOf, base64urlEncode]
  simp only [proofChunkChars] at hcount ⊢
  omega

theorem toTxt_eq (h : proof.encode = some encoded) :
    proof.toTxt sha256 = some ((partsOf sha256 encoded).map Part.text) := by
  rw [RekorProof.toTxt, h]
  exact if_neg (Nat.not_lt.mpr (length_partsOf_le h))

theorem mem_partsOf {part : Part} (h : part ∈ partsOf sha256 encoded) :
    part.group = groupOf sha256 encoded ∧ part.total = (partsOf sha256 encoded).length ∧
      ∃ i, part.index = i + 1 ∧
        (chunksOf proofChunkChars (base64urlEncode encoded))[i]? = some part.chunk := by
  rw [length_partsOf]
  obtain ⟨i, hi, rfl⟩ := mem_mapIdx.mp h
  exact ⟨rfl, rfl, i, rfl, List.getElem?_eq_getElem hi⟩

theorem wellFormed_of_mem_partsOf (h : proof.encode = some encoded) {part : Part}
    (hpart : part ∈ partsOf sha256 encoded) : part.WellFormed := by
  obtain ⟨hgroup, htotal, i, hindex, hchunk⟩ := mem_partsOf hpart
  have hmem := List.mem_of_getElem? hchunk
  have hi := (List.getElem?_eq_some_iff.mp hchunk).1
  rw [← @length_partsOf sha256] at hi
  exact
    { group := hgroup ▸ (groupOf_spec sha256 encoded).1
      lower := hgroup ▸ (groupOf_spec sha256 encoded).2
      index := by omega
      total := by omega
      small := htotal ▸ length_partsOf_le h
      chunk := ⟨ne_nil_of_mem_chunksOf hmem, fun c hc =>
        forall_urlLetters (p := fun c => isWhiteSpace c = false)
          (fun n hn => (urlLetter_spec n hn).1) encoded c
          (mem_of_mem_chunksOf hmem hc)⟩ }

/-! ## One group -/

/-- What the parts of one total come to, none of them with the index of another. -/
structure Gathered (total : Nat) (parts : List Part) (readings : Readings) : Prop where
  only : ∀ other, other ≠ total → readings.byTotal[other]? = none
  single : readings.duplicated = ∅
  chunks : ∀ i chunk, (readings.byTotal.getD total ∅)[i]? = some chunk ↔
    ∃ part ∈ parts, part.index = i ∧ part.chunk = chunk
  present : parts ≠ [] → readings.byTotal.contains total = true

theorem gathered_foldl_add {total : Nat}
    (htotal : ∀ part ∈ parts, part.total = total) (hnodup : (parts.map Part.index).Nodup) :
    Gathered total parts (parts.foldl Readings.add ⟨∅, ∅⟩) := by
  induction parts using reverseRecOn with
  | nil =>
    exact ⟨fun _ _ => TreeMap.getElem?_emptyc, rfl, by simp [TreeMap.getD_emptyc], by simp⟩
  | append_singleton parts part ih =>
    rw [map_append, nodup_append] at hnodup
    have ih := ih (fun other hother => htotal other (mem_append_left _ hother)) hnodup.1
    have hthis : part.total = total := htotal part (by simp)
    rw [foldl_append, foldl_cons, foldl_nil]
    generalize parts.foldl Readings.add ⟨∅, ∅⟩ = readings at ih ⊢
    have hnew : (readings.byTotal.getD total ∅).contains part.index = false := by
      rw [contains_eq_false_iff, Option.eq_none_iff_forall_ne_some]
      intro chunk hchunk
      obtain ⟨other, hother, hindex, -⟩ := (ih.chunks _ _).mp hchunk
      exact hnodup.2.2 _ (mem_map.mpr ⟨other, hother, rfl⟩) part.index (by simp) hindex
    constructor
    · intro other hother
      simp only [Readings.add, hthis]
      rw [TreeMap.getElem?_insert, if_neg (by simpa using hother.symm)]
      exact ih.only other hother
    · simp only [Readings.add, hthis, hnew]
      simpa using ih.single
    · intro i chunk
      simp only [Readings.add, hthis]
      rw [TreeMap.getD_insert_self, TreeMap.getElem?_insert]
      by_cases hi : part.index = i
      · subst hi
        rw [if_pos (by simp), Option.some.injEq]
        constructor
        · intro hchunk
          exact ⟨part, by simp, rfl, hchunk⟩
        · rintro ⟨other, hother, hindex, rfl⟩
          rw [mem_append, mem_singleton] at hother
          obtain hother | rfl := hother
          · exact absurd hindex
              (hnodup.2.2 _ (mem_map.mpr ⟨other, hother, rfl⟩) part.index (by simp))
          · rfl
      · rw [if_neg (by simpa using hi), ih.chunks]
        constructor
        · rintro ⟨other, hother, hrest⟩
          exact ⟨other, mem_append_left _ hother, hrest⟩
        · rintro ⟨other, hother, hindex, rfl⟩
          rw [mem_append, mem_singleton] at hother
          obtain hother | rfl := hother
          · exact ⟨other, hother, hindex, rfl⟩
          · exact absurd hindex hi
    · intro _
      simp only [Readings.add, hthis]
      exact TreeMap.contains_insert_self

/-- The loop over the indices puts the pieces together in their order. -/
theorem foldlM_gatherPart {group : String} {total : Nat} {chunks : TreeMap Nat (List Char)}
    {pieces : List (List Char)} (h : ∀ i piece, pieces[i]? = some piece → chunks[i + 1]? = some piece)
    {count : Nat} (hcount : count ≤ pieces.length) :
    (List.range' 1 count).foldlM (gatherPart group none total chunks) [] =
      .ok (pieces.take count).flatten := by
  induction count with
  | zero => rfl
  | succ count ih =>
    have hpiece : pieces[count]? = some (pieces.get ⟨count, hcount⟩) :=
      getElem?_eq_getElem hcount
    have htake : (pieces.take (count + 1)).flatten =
        (pieces.take count).flatten ++ pieces.get ⟨count, hcount⟩ := by
      rw [take_add_one, hpiece, Option.toList_some, flatten_append, flatten_singleton]
    rw [range'_concat, foldlM_append, ih (Nat.le_of_succ_le hcount), Nat.one_mul,
      Nat.add_comm 1, htake]
    refine bind_eq_ok_iff.mpr ⟨_, rfl, bind_eq_ok_iff.mpr ⟨_, ?_, rfl⟩⟩
    simp only [gatherPart, bind_eq_ok_iff, refuseIf_eq_ok_iff, orRefuse_eq_ok_iff]
    exact ⟨(), by simp, _, h _ _ hpiece, rfl⟩

theorem firstOk_of_forall {last : ProofError} {outcomes : List (Except ProofError RekorProof)}
    (hne : outcomes ≠ []) (h : ∀ outcome ∈ outcomes, outcome = .ok proof) :
    firstOk last outcomes = .ok proof := by
  cases outcomes with
  | nil => exact absurd rfl hne
  | cons outcome rest =>
    rw [h outcome mem_cons_self]
    rfl

theorem partsOf_ne_nil (h : proof.encode = some encoded) : partsOf sha256 encoded ≠ [] := by
  intro hnil
  have hchunks : chunksOf proofChunkChars (base64urlEncode encoded) = [] := by
    rw [← length_eq_zero_iff, ← @length_partsOf sha256, hnil, length_nil]
  have hpayload : base64urlEncode encoded = [] := by
    rw [← flatten_chunksOf (show proofChunkChars ≠ 0 by decide) (base64urlEncode encoded), hchunks, flatten_nil]
  have hdecoded := base64urlDecode_encode (fun _ => "") encoded
  rw [hpayload] at hdecoded
  have hempty : ([] : List UInt8) = encoded := Except.ok.inj hdecoded
  have hlength := (length_encode_le h).1
  rw [← hempty] at hlength
  exact absurd hlength (by decide)

theorem nodup_index_partsOf (encoded : List UInt8) :
    ((partsOf sha256 encoded).map Part.index).Nodup := by
  have hmap : (partsOf sha256 encoded).map Part.index =
      (List.range (partsOf sha256 encoded).length).map (· + 1) := by
    apply List.ext_getElem
    · simp
    · intro i _ _
      simp [partsOf]
  rw [hmap]
  exact List.Nodup.map (fun _ _ h => Nat.succ.inj h) nodup_range

/-- The parts of a document, in any order, give the document. -/
theorem assembleGroup_of_perm (hindex : proof.logIndex < 2 ^ 64)
    (hencode : proof.encode = some encoded) (hperm : parts.Perm (partsOf sha256 encoded)) :
    assembleGroup sha256 explain (groupOf sha256 encoded) parts = .ok proof := by
  have hgathered : Gathered (partsOf sha256 encoded).length parts _ :=
    gathered_foldl_add (fun part hpart => (mem_partsOf (hperm.mem_iff.mp hpart)).2.1)
      ((hperm.map Part.index).nodup_iff.mpr (nodup_index_partsOf encoded))
  have hne : parts ≠ [] := by
    rintro rfl
    exact partsOf_ne_nil hencode (nil_perm.mp hperm)
  rw [assembleGroup]
  generalize parts.foldl Readings.add ⟨∅, ∅⟩ = readings at hgathered ⊢
  apply firstOk_of_forall
  · intro hnil
    obtain ⟨chunks, hchunks⟩ := contains_eq_true_iff.mp (hgathered.present hne)
    have hmem := TreeMap.mem_toList_iff_getElem?_eq_some.mpr hchunks
    rw [map_eq_nil_iff.mp hnil] at hmem
    cases hmem
  · intro outcome houtcome
    obtain ⟨⟨total, chunks⟩, hmem, rfl⟩ := mem_map.mp houtcome
    have hreading := TreeMap.mem_toList_iff_getElem?_eq_some.mp hmem
    obtain rfl : total = (partsOf sha256 encoded).length := by
      by_contra hother
      rw [hgathered.only total hother] at hreading
      cases hreading
    have hchunks : readings.byTotal.getD (partsOf sha256 encoded).length ∅ = chunks := by
      rw [TreeMap.getD_eq_getD_getElem?, hreading, Option.getD_some]
    -- every piece of the payload is among the parts
    have hpieces : ∀ i piece, (chunksOf proofChunkChars (base64urlEncode encoded))[i]? = some piece →
        chunks[i + 1]? = some piece := by
      intro i piece hpiece
      rw [← hchunks, hgathered.chunks]
      obtain ⟨hi, rfl⟩ := List.getElem?_eq_some_iff.mp hpiece
      exact ⟨_, hperm.mem_iff.mpr (mem_mapIdx.mpr ⟨i, hi, rfl⟩), rfl, rfl⟩
    have hpayload : (range' 1 (partsOf sha256 encoded).length).foldlM
        (gatherPart (groupOf sha256 encoded) none (partsOf sha256 encoded).length chunks) [] =
        .ok (base64urlEncode encoded) := by
      rw [foldlM_gatherPart hpieces (Nat.le_of_eq (length_partsOf encoded)), length_partsOf,
        take_length, flatten_chunksOf (show proofChunkChars ≠ 0 by decide)]
    simp only [readTotal, decodeGroup, bind_eq_ok_iff, refuseIf_eq_ok_iff, not_not]
    rw [hgathered.single, TreeMap.getElem?_emptyc]
    exact ⟨_, hpayload, encoded, base64urlDecode_encode explain encoded, (), rfl,
      decode_eq_ok_iff.mpr ⟨hencode, hindex⟩⟩

/-- The parts of a group, in the order their records came. -/
def partsNamed (group : String) (records : List String) : List Part :=
  (records.filterMap fun record => (parseChunk record).toOption).filter fun part =>
    part.group = group

theorem getElem?_sortRecords (records : List String) (group : String) :
    (sortRecords records).groups[group]? =
      if partsNamed group records = [] then none else some (partsNamed group records) := by
  induction records using reverseRecOn with
  | nil => exact TreeMap.getElem?_emptyc
  | append_singleton records record ih =>
    have hsort : sortRecords (records ++ [record]) = (sortRecords records).add record := by
      rw [sortRecords, foldl_append]
      rfl
    rw [hsort]
    match hread : parseChunk record with
    | .error reason =>
      have hsame : partsNamed group (records ++ [record]) = partsNamed group records := by
        simp [partsNamed, hread, Except.toOption]
      rw [hsame, ← ih]
      simp only [Sorted.add, hread]
    | .ok part =>
      have hparts : partsNamed group (records ++ [record]) =
          partsNamed group records ++ if part.group = group then [part] else [] := by
        simp [partsNamed, hread, Except.toOption, filter_cons]
      simp only [Sorted.add, hread]
      rw [TreeMap.getElem?_insert, hparts]
      by_cases hgroup : part.group = group
      · have hbefore : (sortRecords records).groups.getD group [] = partsNamed group records := by
          rw [TreeMap.getD_eq_getD_getElem?, ih]
          split
          · rename_i hnil
            rw [hnil]
            rfl
          · rfl
        rw [if_pos (by simpa using hgroup), if_pos hgroup, if_neg (by simp), hgroup, hbefore]
      · rw [if_neg (by simpa using hgroup), if_neg hgroup, append_nil, ih]

/-- What comes back is what the groups give, so long as there is a group. -/
theorem ok_mem_proofsFromTxt_iff {records : List String} :
    .ok proof ∈ proofsFromTxt sha256 explain records ↔
      ∃ group, partsNamed group records ≠ [] ∧
        assembleGroup sha256 explain group (partsNamed group records) = .ok proof := by
  have hgroups : ∀ group parts, (group, parts) ∈ (sortRecords records).groups.toList ↔
      partsNamed group records ≠ [] ∧ parts = partsNamed group records := by
    intro group parts
    rw [TreeMap.mem_toList_iff_getElem?_eq_some, getElem?_sortRecords,
      Option.ite_none_left_eq_some, Option.some.injEq, eq_comm (a := parts)]
  have hout : .ok proof ∈ ((sortRecords records).groups.toList.map fun entry =>
      assembleGroup sha256 explain entry.1 entry.2) ↔
      ∃ group, partsNamed group records ≠ [] ∧
        assembleGroup sha256 explain group (partsNamed group records) = .ok proof := by
    rw [mem_map]
    constructor
    · rintro ⟨⟨group, parts⟩, hmem, hassembled⟩
      obtain ⟨hne, rfl⟩ := (hgroups group parts).mp hmem
      exact ⟨group, hne, hassembled⟩
    · rintro ⟨group, hne, hassembled⟩
      exact ⟨(group, _), (hgroups group _).mpr ⟨hne, rfl⟩, hassembled⟩
  rw [← hout, proofsFromTxt]
  split
  · rename_i hempty
    rw [isEmpty_iff.mp hempty]
    simp
  · rfl

theorem firstOk_eq_ok {last : ProofError} {outcomes : List (Except ProofError RekorProof)}
    (h : firstOk last outcomes = .ok proof) : .ok proof ∈ outcomes := by
  induction outcomes generalizing last with
  | nil => cases h
  | cons outcome rest ih =>
    cases outcome with
    | ok found =>
      cases h
      exact mem_cons_self
    | error reason => exact mem_cons_of_mem _ (ih h)

/-- A group that gives a record gives one with that group's digest. -/
theorem encode_of_assembleGroup {group : String}
    (h : assembleGroup sha256 explain group parts = .ok proof) :
    ∃ encoded, proof.encode = some encoded ∧ groupOf sha256 encoded = group := by
  obtain ⟨⟨total, chunks⟩, -, hreading⟩ := mem_map.mp (firstOk_eq_ok h)
  obtain ⟨payload, -, hdecoded⟩ := bind_eq_ok_iff.mp hreading
  obtain ⟨bytes, -, hdecoded⟩ := bind_eq_ok_iff.mp hdecoded
  obtain ⟨⟨⟩, hdigest, hdecoded⟩ := bind_eq_ok_iff.mp hdecoded
  exact ⟨bytes, (decode_eq_ok_iff.mp hdecoded).1, not_not.mp (refuseIf_eq_ok_iff.mp hdigest)⟩

end Parts

/-! ## Digests -/

theorem hexDigits_injective : Function.Injective hexDigits := by
  have hdigit : ∀ m < 16, ∀ n < 16, Nat.digitChar m = Nat.digitChar n → m = n := by
    decide +kernel
  intro a b h
  have ha := a.toNat_lt
  have hb := b.toNat_lt
  obtain ⟨hhigh, hrest⟩ := cons_eq_cons.mp h
  have hlow := (cons_eq_cons.mp hrest).1
  have hhigh := hdigit _ (by omega) _ (by omega) hhigh
  have hlow := hdigit _ (by omega) _ (by omega) hlow
  apply UInt8.toNat_inj.mp
  omega

theorem hexLower_injective : Function.Injective hexLower := by
  intro a b h
  have hdigits : a.flatMap hexDigits = b.flatMap hexDigits := String.ofList_injective h
  induction a generalizing b with
  | nil =>
    cases b with
    | nil => rfl
    | cons byte b => cases hdigits
  | cons byte a ih =>
    cases b with
    | nil => cases hdigits
    | cons byte' b =>
      rw [flatMap_cons, flatMap_cons] at hdigits
      obtain ⟨hbyte, hrest⟩ := append_inj hdigits rfl
      rw [hexDigits_injective hbyte, ih (congrArg String.ofList hrest) hrest]

/-- The first four bytes of the digest of a record's encoding. -/
def RekorProof.digest (sha256 : List UInt8 → Hash) (proof : RekorProof) : Option (List UInt8) :=
  proof.encode.map fun encoded => (sha256 encoded).bytes.take 4

theorem digest_eq_of_groupOf {sha256 : List UInt8 → Hash} {a b : RekorProof}
    {encodedA encodedB : List UInt8} (ha : a.encode = some encodedA)
    (hb : b.encode = some encodedB) (h : groupOf sha256 encodedA = groupOf sha256 encodedB) :
    a.digest sha256 = b.digest sha256 := by
  rw [RekorProof.digest, RekorProof.digest, ha, hb]
  exact congrArg some (hexLower_injective h)

theorem partsNamed_append (group : String) (records others : List String) :
    partsNamed group (records ++ others) = partsNamed group records ++ partsNamed group others := by
  rw [partsNamed, filterMap_append, filter_append]
  rfl

theorem partsNamed_eq_nil {group : String} {records : List String}
    (h : ∀ record ∈ records, ∀ part, parseChunk record = .ok part → part.group ≠ group) :
    partsNamed group records = [] := by
  rw [partsNamed, filter_eq_nil_iff]
  intro part hpart
  obtain ⟨record, hrecord, hread⟩ := mem_filterMap.mp hpart
  match hparse : parseChunk record with
  | .ok read =>
    rw [hparse] at hread
    cases hread
    simpa using h record hrecord part hparse
  | .error reason =>
    rw [hparse] at hread
    cases hread

section Publisher

variable {sha256 : List UInt8 → Hash}

/-- The records of a document, read back. -/
theorem partsNamed_toTxt {proof : RekorProof} {encoded : List UInt8}
    (h : proof.encode = some encoded) (group : String) :
    partsNamed group ((proof.toTxt sha256).getD []) =
      if groupOf sha256 encoded = group then partsOf sha256 encoded else [] := by
  have hread : ((partsOf sha256 encoded).map Part.text).filterMap
      (fun record => (parseChunk record).toOption) = partsOf sha256 encoded := by
    rw [filterMap_map]
    refine (filterMap_congr fun part hpart => ?_).trans filterMap_some
    change (parseChunk part.text).toOption = some part
    rw [(wellFormed_of_mem_partsOf h hpart).parseChunk_text]
    rfl
  rw [partsNamed, toTxt_eq h, Option.getD_some, hread]
  split
  · rename_i hgroup
    rw [filter_eq_self]
    intro part hpart
    simpa using (mem_partsOf hpart).1.trans hgroup
  · rename_i hgroup
    rw [filter_eq_nil_iff]
    intro part hpart
    rw [(mem_partsOf hpart).1]
    simpa using hgroup

/-- Of the records of documents with different digests, those of one group are one document's. -/
theorem partsNamed_flatMap_toTxt {proofs : List RekorProof}
    (hencode : ∀ proof ∈ proofs, proof.encode ≠ none)
    (hdistinct : proofs.Pairwise fun a b => a.digest sha256 ≠ b.digest sha256) {proof : RekorProof}
    (hproof : proof ∈ proofs) {encoded : List UInt8} (h : proof.encode = some encoded) :
    partsNamed (groupOf sha256 encoded)
        (proofs.flatMap fun proof => (proof.toTxt sha256).getD []) =
      partsOf sha256 encoded := by
  induction proofs with
  | nil => cases hproof
  | cons first rest ih =>
    rw [forall_mem_cons] at hencode
    rw [pairwise_cons] at hdistinct
    obtain ⟨encodedFirst, hfirst⟩ := Option.ne_none_iff_exists'.mp hencode.1
    rw [flatMap_cons, partsNamed_append, partsNamed_toTxt hfirst]
    obtain rfl | hrest := mem_cons.mp hproof
    · -- no later document has this group
      rw [h] at hfirst
      cases hfirst
      have hnone : partsNamed (groupOf sha256 encoded)
          (rest.flatMap fun proof => (proof.toTxt sha256).getD []) = [] := by
        apply partsNamed_eq_nil
        intro record hrecord part hpart hgroup
        obtain ⟨other, hother, hrecord⟩ := mem_flatMap.mp hrecord
        obtain ⟨encodedOther, hencodedOther⟩ :=
          Option.ne_none_iff_exists'.mp (hencode.2 other hother)
        rw [toTxt_eq hencodedOther, Option.getD_some] at hrecord
        obtain ⟨written, hwritten, rfl⟩ := mem_map.mp hrecord
        rw [(wellFormed_of_mem_partsOf hencodedOther hwritten).parseChunk_text] at hpart
        cases hpart
        rw [(mem_partsOf hwritten).1] at hgroup
        exact hdistinct.1 other hother (digest_eq_of_groupOf h hencodedOther hgroup.symm)
      rw [if_pos rfl, hnone, append_nil]
    · have hother : groupOf sha256 encodedFirst ≠ groupOf sha256 encoded := fun hgroup =>
        hdistinct.1 proof hrest (digest_eq_of_groupOf hfirst h hgroup)
      rw [if_neg hother, nil_append]
      exact ih hencode.2 hdistinct.2 hrest

end Publisher

/-- Documents with different digests all come back, whatever the order of their records and
whatever unreadable records and records of other groups are served beside them; and everything
that comes back is encoded in bytes with the digest that its records name. -/
theorem reassembly_exact (sha256 : List UInt8 → Hash) (explain : List Char → String) :
    (∀ (proofs : List RekorProof) (others records : List String),
      (∀ proof ∈ proofs, proof.logIndex < 2 ^ 64 ∧ proof.encode ≠ none) →
      proofs.Pairwise (fun a b => a.digest sha256 ≠ b.digest sha256) →
      (∀ record ∈ others, ∀ part, parseChunk record = .ok part →
        ∀ proof ∈ proofs, ∀ encoded, proof.encode = some encoded →
          part.group ≠ groupOf sha256 encoded) →
      records.Perm ((proofs.flatMap fun proof => (proof.toTxt sha256).getD []) ++ others) →
      ∀ proof ∈ proofs, .ok proof ∈ proofsFromTxt sha256 explain records) ∧
    ∀ (records : List String) (proof : RekorProof),
      .ok proof ∈ proofsFromTxt sha256 explain records →
      ∃ encoded, proof.encode = some encoded ∧
        partsNamed (groupOf sha256 encoded) records ≠ [] ∧
        assembleGroup sha256 explain (groupOf sha256 encoded)
          (partsNamed (groupOf sha256 encoded) records) = .ok proof := by
  constructor
  · intro proofs others records hencode hdistinct hothers hperm proof hproof
    obtain ⟨hindex, hsome⟩ := hencode proof hproof
    obtain ⟨encoded, hencoded⟩ := Option.ne_none_iff_exists'.mp hsome
    have hnamed : (partsNamed (groupOf sha256 encoded) records).Perm (partsOf sha256 encoded) := by
      have hnone : partsNamed (groupOf sha256 encoded) others = [] :=
        partsNamed_eq_nil fun record hrecord part hpart =>
          hothers record hrecord part hpart proof hproof encoded hencoded
      have hall := (hperm.filterMap fun record => (parseChunk record).toOption).filter
        (fun part => part.group = groupOf sha256 encoded)
      change (partsNamed _ _).Perm (partsNamed _ _) at hall
      rw [partsNamed_append, hnone, append_nil,
        partsNamed_flatMap_toTxt (fun proof h => (hencode proof h).2) hdistinct hproof hencoded]
        at hall
      exact hall
    refine ok_mem_proofsFromTxt_iff.mpr
      ⟨groupOf sha256 encoded, ?_, assembleGroup_of_perm hindex hencoded hnamed⟩
    intro hnil
    rw [hnil] at hnamed
    exact partsOf_ne_nil hencoded (nil_perm.mp hnamed)
  · intro records proof hproof
    obtain ⟨group, hne, hassembled⟩ := ok_mem_proofsFromTxt_iff.mp hproof
    obtain ⟨encoded, hencoded, rfl⟩ := encode_of_assembleGroup hassembled
    exact ⟨encoded, hencoded, hne, hassembled⟩

/-- A record with a statement of so many bytes. -/
def lettersProof (length : Nat) : RekorProof where
  logId := .ofNat 0
  logIndex := 7
  statement := List.replicate length 0x78
  canonicalizedBody := []
  checkpoint := []
  inclusionPath := []

/-- A digest that tells documents apart by their length. -/
def lengthDigest (bytes : List UInt8) : Hash :=
  .ofNat (bytes.length * 256 ^ 28)

/-- Two records come back from their text records beside one that is not theirs. -/
theorem two_records_reassembled :
    let records := "v=spf1 -all" ::
      [lettersProof 0, lettersProof 1].flatMap fun proof => (proof.toTxt lengthDigest).getD []
    .ok (lettersProof 0) ∈ proofsFromTxt lengthDigest (fun _ => "") records ∧
      .ok (lettersProof 1) ∈ proofsFromTxt lengthDigest (fun _ => "") records := by
  intro records
  have hencode : ∀ proof ∈ [lettersProof 0, lettersProof 1],
      proof.logIndex < 2 ^ 64 ∧ proof.encode ≠ none := by
    simp only [forall_mem_cons]
    exact ⟨⟨by decide, by decide⟩, ⟨by decide, by decide⟩, by simp⟩
  have hdistinct : [lettersProof 0, lettersProof 1].Pairwise
      fun a b => a.digest lengthDigest ≠ b.digest lengthDigest := by
    simp only [pairwise_cons, forall_mem_cons]
    exact ⟨⟨by decide +kernel, by simp⟩, by simp, List.Pairwise.nil⟩
  have hother : (parseChunk "v=spf1 -all").toOption = none := by decide +kernel
  have hall := (reassembly_exact lengthDigest fun _ => "").1 _ ["v=spf1 -all"] records hencode
    hdistinct ?_ (perm_append_comm : (["v=spf1 -all"] ++ _).Perm _)
  · exact ⟨hall _ (by simp), hall _ (by simp)⟩
  · intro record hrecord part hpart
    rw [mem_singleton] at hrecord
    rw [← hrecord, hpart] at hother
    cases hother

end Synch.Transparency
