import Synch.Support.Utf8
import Synch.Zone.Rdata

/-!
# DNS messages

The decoder of queries follows compression pointers, which must point backwards
and of which it follows at most thirty-two.  Responses are uncompressed and echo
the question.
-/

namespace Synch.Zone

open List Synch.Support
open Synch.Transparency (Label encodedLength lowerByte)

/-- The EDNS state of a query. -/
structure Edns where
  udpSize : Nat
  doBit : Bool
deriving DecidableEq, Repr

structure Query where
  id : Nat
  opcode : Nat
  rd : Bool
  qname : Name
  qtype : Nat
  qclass : Nat
  edns : Option Edns
deriving DecidableEq, Repr

inductive DecodeError where
  | malformed
  | unsupported (id : Nat)
deriving DecidableEq, Repr

def maxPointerHops : Nat := 32

/-- So many bytes from an offset, if the message has them. -/
def slice (msg : List UInt8) (offset len : Nat) : Option (List UInt8) :=
  if offset + len ≤ msg.length then some ((msg.drop offset).take len) else none

/-- The number in the two bytes at an offset. -/
def word (bytes : List UInt8) (offset : Nat) : Nat :=
  (bytes.getD offset 0).toNat * 256 + (bytes.getD (offset + 1) 0).toNat

/-- Whether bytes are text. -/
def isUtf8 (bytes : List UInt8) : Bool :=
  (textOf bytes).isSome

/-- Folds A to Z and nothing else, by byte. -/
def lowercaseAscii (label : Label) : Label :=
  if label = [] then []
  else
    let folded := label.map lowerByte
    if isUtf8 folded then folded else []

/-! ## Names -/

/-- One step into a name: its end, a label with the rest, or a pointer. -/
def decodeNameStep
    (next : Nat → Nat → Option (Name × Nat)) (msg : List UInt8) (offset hops : Nat) :
    Option (Name × Nat) :=
  if hops > maxPointerHops then none
  else
    match slice msg offset 1 with
    | some [byte] =>
      let len := byte.toNat
      if len = 0 then some ([], offset + 1)
      else if len < 64 then
        match slice msg (offset + 1) len with
        | some label =>
          if isUtf8 label then
            match next (offset + 1 + len) hops with
            | some (rest, stop) => some (lowercaseAscii label :: rest, stop)
            | none => none
          else none
        | none => none
      else if len / 64 = 3 then
        match slice msg offset 2 with
        | some [high, low] =>
          let target := high.toNat % 64 * 256 + low.toNat
          if target ≥ offset then none
          else
            match next target (hops + 1) with
            | some (labels, _) => some (labels, offset + 2)
            | none => none
        | _ => none
      else none
    | _ => none

def decodeNameFrom : Nat → List UInt8 → Nat → Nat → Option (Name × Nat)
  | 0, _, _, _ => none
  | fuel + 1, msg, offset, hops => decodeNameStep (decodeNameFrom fuel msg) msg offset hops

/-- More steps than a name can take: every pointer may lead back to the start. -/
def nameSteps (msg : List UInt8) (offset hops : Nat) : Nat :=
  (maxPointerHops + 1 - hops) * (msg.length + 1) + (msg.length - offset) + 1

/-- The name at an offset, and the offset past it. -/
def decodeName (msg : List UInt8) (offset hops : Nat) : Option (Name × Nat) :=
  decodeNameFrom (nameSteps msg offset hops) msg offset hops

variable {msg : List UInt8} {offset hops stop : Nat} {name : Name}

/-- A label moves on. -/
theorem nameSteps_label (h : offset < msg.length) (len : Nat) :
    nameSteps msg (offset + 1 + len) hops < nameSteps msg offset hops := by
  unfold nameSteps
  omega

/-- A pointer may go back, but uses up a hop. -/
theorem nameSteps_pointer (hhops : hops ≤ maxPointerHops) (h : offset < msg.length) (target : Nat) :
    nameSteps msg target (hops + 1) < nameSteps msg offset hops := by
  unfold nameSteps
  have hleft : maxPointerHops + 1 - hops = (maxPointerHops + 1 - (hops + 1)) + 1 := by
    omega
  rw [hleft, Nat.add_mul, Nat.one_mul]
  omega

theorem decodeNameStep_congr {next next' : Nat → Nat → Option (Name × Nat)}
    (h : ∀ offset' hops', nameSteps msg offset' hops' < nameSteps msg offset hops →
      next offset' hops' = next' offset' hops') :
    decodeNameStep next msg offset hops = decodeNameStep next' msg offset hops := by
  unfold decodeNameStep
  by_cases hhops : hops > maxPointerHops
  · rw [if_pos hhops, if_pos hhops]
  rw [if_neg hhops, if_neg hhops]
  split
  · rename_i byte hbyte
    have hoffset : offset < msg.length := by
      unfold slice at hbyte
      split_ifs at hbyte with hle
      omega
    dsimp only
    rw [h _ _ (nameSteps_label hoffset byte.toNat)]
    simp only [h _ _ (nameSteps_pointer (not_lt.mp hhops) hoffset _)]
  · rfl

theorem decodeNameFrom_stable {fuel fuel' : Nat} (hfuel : nameSteps msg offset hops ≤ fuel)
    (hfuel' : nameSteps msg offset hops ≤ fuel') :
    decodeNameFrom fuel msg offset hops = decodeNameFrom fuel' msg offset hops := by
  induction fuel generalizing fuel' offset hops with
  | zero =>
    unfold nameSteps at hfuel
    omega
  | succ fuel ih =>
    cases fuel' with
    | zero =>
      unfold nameSteps at hfuel'
      omega
    | succ fuel' =>
      exact decodeNameStep_congr fun offset' hops' hlt => ih (by omega) (by omega)

/-- The steps never run out. -/
theorem decodeName_eq (msg : List UInt8) (offset hops : Nat) :
    decodeName msg offset hops = decodeNameStep (decodeName msg) msg offset hops := by
  rw [decodeName, decodeNameFrom_stable (le_refl _) (Nat.le_succ _)]
  exact decodeNameStep_congr fun offset' hops' hlt =>
    decodeNameFrom_stable hlt.le (le_refl _)

theorem slice_eq_some_iff {bytes : List UInt8} {len : Nat} :
    slice msg offset len = some bytes ↔
      offset + len ≤ msg.length ∧ (msg.drop offset).take len = bytes := by
  unfold slice
  split_ifs with h
  · simp [h]
  · simp [h]

theorem length_of_slice {bytes : List UInt8} {len : Nat} (h : slice msg offset len = some bytes) :
    bytes.length = len := by
  obtain ⟨hle, rfl⟩ := slice_eq_some_iff.mp h
  rw [length_take, length_drop]
  omega

theorem slice_one_eq_some_iff {byte : UInt8} :
    slice msg offset 1 = some [byte] ↔ msg[offset]? = some byte := by
  rw [slice_eq_some_iff, take_one, head?_drop]
  cases h : msg[offset]? with
  | none => simp
  | some other =>
    have hlt := (List.getElem?_eq_some_iff.mp h).1
    simp [Nat.succ_le_of_lt hlt]

theorem slice_two_eq_some {high low : UInt8} (h : slice msg offset 2 = some [high, low]) :
    msg[offset]? = some high ∧ msg[offset + 1]? = some low := by
  obtain ⟨-, hbytes⟩ := slice_eq_some_iff.mp h
  have hget : ∀ i, (msg.drop offset)[i]? = msg[offset + i]? := fun i => getElem?_drop
  have hhigh : ((msg.drop offset).take 2)[0]? = some high := by rw [hbytes]; rfl
  have hlow : ((msg.drop offset).take 2)[1]? = some low := by rw [hbytes]; rfl
  rw [getElem?_take_of_lt (by decide), hget] at hhigh hlow
  exact ⟨hhigh, hlow⟩

/-- The labels a message spells from an offset on, through its pointers. -/
inductive Spells (msg : List UInt8) : Nat → Name → Prop where
  | root {offset : Nat} (h : msg[offset]? = some 0) : Spells msg offset []
  | label {offset : Nat} {len : UInt8} {label : Label} {rest : Name}
      (hlen : msg[offset]? = some len) (hpos : 0 < len.toNat) (hshort : len.toNat < 64)
      (hlabel : slice msg (offset + 1) len.toNat = some label)
      (hrest : Spells msg (offset + 1 + len.toNat) rest) :
      Spells msg offset (label :: rest)
  | pointer {offset : Nat} {high low : UInt8} {labels : Name}
      (hhigh : msg[offset]? = some high) (htag : 192 ≤ high.toNat)
      (hlow : msg[offset + 1]? = some low)
      (hrest : Spells msg (high.toNat % 64 * 256 + low.toNat) labels) :
      Spells msg offset labels

theorem Spells.unique {a b : Name} (ha : Spells msg offset a) (hb : Spells msg offset b) :
    a = b := by
  induction ha generalizing b with
  | root h =>
    cases hb with
    | root => rfl
    | label hlen hpos =>
      cases h.symm.trans hlen
      exact absurd hpos (by decide)
    | pointer hhigh htag =>
      cases h.symm.trans hhigh
      exact absurd htag (by decide)
  | label hlen hpos hshort hlabel _ ih =>
    cases hb with
    | root h =>
      cases h.symm.trans hlen
      exact absurd hpos (by decide)
    | label hlen' _ _ hlabel' hrest' =>
      cases hlen.symm.trans hlen'
      cases hlabel.symm.trans hlabel'
      rw [ih hrest']
    | pointer hhigh htag =>
      cases hlen.symm.trans hhigh
      omega
  | pointer hhigh htag hlow _ ih =>
    cases hb with
    | root h =>
      cases h.symm.trans hhigh
      exact absurd htag (by decide)
    | label hlen _ hshort =>
      cases hhigh.symm.trans hlen
      omega
    | pointer hhigh' _ hlow' hrest' =>
      cases hhigh.symm.trans hhigh'
      cases hlow.symm.trans hlow'
      exact ih hrest'

theorem lowercaseAscii_eq {label : Label} (h : isUtf8 label = true) :
    lowercaseAscii label = label.map lowerByte := by
  have hfolded : isUtf8 (label.map lowerByte) = true := by
    apply isSome_textOf_map _ _ h
    · intro byte hbyte
      unfold lowerByte
      split_ifs with hupper
      · simp only [UInt8.le_iff_toNat_le] at hupper
        rw [UInt8.toNat_add]
        change 65 ≤ byte.toNat ∧ byte.toNat ≤ 90 at hupper
        change (byte.toNat + 32) % 256 ≤ 127
        omega
      · exact hbyte
    · intro byte hbyte
      refine if_neg fun hupper => ?_
      simp only [UInt8.le_iff_toNat_le] at hupper
      change 65 ≤ byte.toNat ∧ byte.toNat ≤ 90 at hupper
      omega
  unfold lowercaseAscii
  split_ifs with hnil
  · rw [hnil]
    rfl
  · rw [if_pos hfolded]

/-- What the decoder accepted at an offset: the end, a label, or a pointer. -/
theorem decodeName_cases (h : decodeName msg offset hops = some (name, stop)) :
    (msg[offset]? = some 0 ∧ name = []) ∨
    (∃ len label rest, msg[offset]? = some len ∧ 0 < len.toNat ∧ len.toNat < 64 ∧
      slice msg (offset + 1) len.toNat = some label ∧
      decodeName msg (offset + 1 + len.toNat) hops = some (rest, stop) ∧
      name = label.map lowerByte :: rest) ∨
    ∃ high low stop', msg[offset]? = some high ∧ 192 ≤ high.toNat ∧
      msg[offset + 1]? = some low ∧ hops ≤ maxPointerHops ∧
      decodeName msg (high.toNat % 64 * 256 + low.toNat) (hops + 1) = some (name, stop') := by
  rw [decodeName_eq, decodeNameStep] at h
  split at h
  · cases h
  rename_i hhops
  split at h
  · rename_i byte hbyte
    have hget := slice_one_eq_some_iff.mp hbyte
    dsimp only at h
    split at h
    · rename_i hzero
      cases h
      exact .inl ⟨by rw [hget, UInt8.toNat.inj (b := 0) hzero], rfl⟩
    split at h
    · rename_i hpos hshort
      split at h
      · rename_i label hlabel
        split at h
        · rename_i htext
          split at h
          · rename_i rest stop' hrest
            cases h
            exact .inr (.inl ⟨byte, label, rest, hget, Nat.pos_of_ne_zero hpos, hshort, hlabel,
              hrest, by rw [lowercaseAscii_eq htext]⟩)
          · cases h
        · cases h
      · cases h
    split at h
    · rename_i htag
      split at h
      · rename_i high low htwo
        obtain ⟨hhigh, hlow⟩ := slice_two_eq_some htwo
        cases hget.symm.trans hhigh
        split at h
        · cases h
        split at h
        · rename_i labels stop' hrest
          cases h
          exact .inr (.inr ⟨byte, low, stop', hget, by omega, hlow, by omega, hrest⟩)
        · cases h
      · cases h
    · cases h
  · cases h

/-- The decoder reads what the message spells, in small letters. -/
theorem spells_of_decodeName (h : decodeName msg offset hops = some (name, stop)) :
    ∃ labels, Spells msg offset labels ∧ name = labels.map (List.map lowerByte) := by
  -- a label leaves fewer bytes, a pointer fewer hops
  induction hn : nameSteps msg offset hops using Nat.strong_induction_on
    generalizing offset hops stop name with
  | _ n ih =>
    subst hn
    obtain ⟨hzero, rfl⟩ | ⟨len, label, rest, hlen, hpos, hshort, hlabel, hrest, rfl⟩ |
      ⟨high, low, stop', hhigh, htag, hlow, hhops, hrest⟩ := decodeName_cases h
    · exact ⟨[], .root hzero, rfl⟩
    · have hlt := (List.getElem?_eq_some_iff.mp hlen).1
      obtain ⟨labels, hspells, rfl⟩ := ih _ (nameSteps_label hlt _) hrest rfl
      exact ⟨label :: labels, .label hlen hpos hshort hlabel hspells, rfl⟩
    · have hlt := (List.getElem?_eq_some_iff.mp hhigh).1
      obtain ⟨labels, hspells, rfl⟩ := ih _ (nameSteps_pointer hhops hlt _) hrest rfl
      exact ⟨labels, .pointer hhigh htag hlow hspells, rfl⟩

theorem Spells.nonempty {labels : Name} (h : Spells msg offset labels) : [] ∉ labels := by
  induction h with
  | root => simp
  | label _ hpos _ hlabel _ ih =>
    intro hmem
    obtain rfl | hmem := mem_cons.mp hmem
    · have hlength := length_of_slice hlabel
      rw [length_nil] at hlength
      omega
    · exact ih hmem
  | pointer _ _ _ _ ih => exact ih

/-- No label of a decoded name is empty. -/
theorem nonempty_of_decodeName (h : decodeName msg offset hops = some (name, stop)) :
    [] ∉ name := by
  obtain ⟨labels, hspells, rfl⟩ := spells_of_decodeName h
  intro hmem
  obtain ⟨label, hlabel, hnil⟩ := mem_map.mp hmem
  rw [map_eq_nil_iff.mp hnil] at hlabel
  exact hspells.nonempty hlabel

/-- A label as it stands in a name the decoder returns. -/
structure Legible (label : Label) : Prop where
  nonempty : label ≠ []
  short : label.length < 64
  text : isUtf8 label = true
  lower : label.map lowerByte = label

theorem slice_append (front bytes back : List UInt8) :
    slice (front ++ (bytes ++ back)) front.length bytes.length = some bytes := by
  rw [slice_eq_some_iff, drop_left, take_left]
  simp

/-- The decoder reads back what the encoder writes. -/
theorem decodeName_encode (hname : ∀ label ∈ name, Legible label) (front back : List UInt8)
    (hhops : hops ≤ maxPointerHops) :
    decodeName (front ++ (encode name ++ back)) front.length hops =
      some (name, front.length + encodedLength name) := by
  induction name generalizing front with
  | nil =>
    have hbyte := slice_append front [0] back
    rw [decodeName_eq, decodeNameStep, if_neg (not_lt.mpr hhops)]
    change (match slice (front ++ ([0] ++ back)) front.length [(0 : UInt8)].length with
      | some [byte] => _
      | _ => none) = _
    rw [hbyte]
    rfl
  | cons label rest ih =>
    obtain ⟨hlabel, hrest⟩ := forall_mem_cons.mp hname
    set len := UInt8.ofNat label.length with hlen
    have hnat : len.toNat = label.length := toNat_ofNat_of_lt (by have := hlabel.short; omega)
    have hmsg : front ++ (encode (label :: rest) ++ back) =
        front ++ ([len] ++ (label ++ (encode rest ++ back))) := by
      simp [encode, hlen]
    have hmsg' : front ++ ([len] ++ (label ++ (encode rest ++ back))) =
        (front ++ [len]) ++ (label ++ (encode rest ++ back)) := by
      simp
    have hmsg'' : front ++ ([len] ++ (label ++ (encode rest ++ back))) =
        (front ++ [len] ++ label) ++ (encode rest ++ back) := by
      simp
    have hbyte := slice_append front [len] (label ++ (encode rest ++ back))
    have hslice := slice_append (front ++ [len]) label (encode rest ++ back)
    have hnext := ih hrest (front ++ [len] ++ label)
    have hpos : 0 < label.length := length_pos_iff.mpr hlabel.nonempty
    rw [← hmsg', length_append, length_singleton] at hslice
    rw [← hmsg'', length_append, length_append, length_singleton] at hnext
    rw [length_singleton] at hbyte
    rw [hmsg, decodeName_eq, decodeNameStep, if_neg (not_lt.mpr hhops), hbyte]
    dsimp only
    rw [hnat, if_neg (by omega), if_pos hlabel.short, hslice]
    dsimp only
    rw [if_pos hlabel.text, hnext]
    rw [lowercaseAscii_eq hlabel.text, hlabel.lower, encodedLength, encodedLength]
    simp
    omega

/-! ## Queries -/

def skipRrs (msg : List UInt8) : Nat → Nat → Option Nat
  | offset, 0 => some offset
  | offset, count + 1 => do
    let (_, offset) ← decodeName msg offset 0
    let fixed ← slice msg offset 10
    skipRrs msg (offset + 10 + word fixed 8) count

/-- The first OPT among so many records. -/
def findOpt (msg : List UInt8) : Nat → Nat → Option (Option Edns)
  | _, 0 => some none
  | offset, count + 1 => do
    let (_, offset) ← decodeName msg offset 0
    let fixed ← slice msg offset 10
    if word fixed 0 = typeOpt then
      some (some ⟨word fixed 2, (fixed.getD 6 0).toNat / 128 == 1⟩)
    else findOpt msg (offset + 10 + word fixed 8) count

/-- Decodes an incoming query datagram. -/
def decodeQuery (msg : List UInt8) : Except DecodeError Query :=
  if msg.length < 12 then .error .malformed
  else
    let id := word msg 0
    let flags := (msg.getD 2 0).toNat
    if ¬(flags / 128 = 0 ∧ word msg 4 = 1) then .error (.unsupported id)
    else
      match decodeName msg 12 0 with
      | none => .error .malformed
      | some (qname, offset) =>
        match slice msg offset 4 with
        | none => .error .malformed
        | some question =>
          match skipRrs msg (offset + 4) (word msg 6 + word msg 8) with
          | none => .error .malformed
          | some offset =>
            match findOpt msg offset (word msg 10) with
            | none => .error .malformed
            | some edns =>
              .ok {
                id
                opcode := flags / 8 % 16
                rd := flags % 2 == 1
                qname
                qtype := word question 0
                qclass := word question 2
                edns }

theorem decodeName_of_decodeQuery {query : Query} (h : decodeQuery msg = .ok query) :
    ∃ stop, decodeName msg 12 0 = some (query.qname, stop) := by
  unfold decodeQuery at h
  split at h
  · cases h
  dsimp only at h
  split at h
  · cases h
  split at h
  · cases h
  rename_i qname stop hname
  split at h
  · cases h
  split at h
  · cases h
  split at h
  · cases h
  cases h
  exact ⟨stop, hname⟩

/-- A question as a client without EDNS sends it. -/
def question (name : Name) (qtype : Nat) : List UInt8 :=
  [0, 1, 0, 0, 0, 1, 0, 0, 0, 0, 0, 0] ++
    (encode name ++ (bigEndian 2 qtype ++ bigEndian 2 classIn))

theorem word_bigEndian {n : Nat} (h : n < 65536) (back : List UInt8) :
    word (bigEndian 2 n ++ back) 0 = n := by
  have hhigh : (UInt8.ofNat (n / 256)).toNat = n / 256 := toNat_ofNat_of_lt (by omega)
  have hlow : (UInt8.ofNat (n / 1)).toNat = n / 1 % 256 := UInt8.toNat_ofNat'
  change (UInt8.ofNat (n / 256)).toNat * 256 + (UInt8.ofNat (n / 1)).toNat = n
  rw [hhigh, hlow]
  omega

theorem decodeQuery_question
    (hname : ∀ label ∈ name, Legible label) {qtype : Nat} (hqtype : qtype < 65536) :
    decodeQuery (question name qtype) = .ok {
      id := 1, opcode := 0, rd := false
      qname := name
      qtype
      qclass := classIn
      edns := none } := by
  have hdecoded : decodeName (question name qtype) 12 0 = some (name, 12 + encodedLength name) :=
    decodeName_encode hname [0, 1, 0, 0, 0, 1, 0, 0, 0, 0, 0, 0] _ (Nat.zero_le _)
  have hslice : slice (question name qtype) (12 + encodedLength name) 4 =
      some (bigEndian 2 qtype ++ bigEndian 2 classIn) := by
    have happend := slice_append ([0, 1, 0, 0, 0, 1, 0, 0, 0, 0, 0, 0] ++ encode name)
      (bigEndian 2 qtype ++ bigEndian 2 classIn) []
    rw [length_append, length_encode, append_nil, append_assoc] at happend
    exact happend
  have hlength : ¬(question name qtype).length < 12 := by
    rw [question, length_append]
    simp
  unfold decodeQuery
  rw [if_neg hlength]
  rw [if_neg (by simp [question, word]), hdecoded]
  dsimp only
  rw [hslice]
  have hword : word (bigEndian 2 qtype ++ bigEndian 2 classIn) 0 = qtype :=
    word_bigEndian hqtype _
  have hclass : word (bigEndian 2 qtype ++ bigEndian 2 classIn) 2 = classIn := by
    simp [word, bigEndian, classIn]
  have hheader : word (question name qtype) 0 = 1 ∧ word (question name qtype) 6 = 0 ∧
      word (question name qtype) 8 = 0 ∧ word (question name qtype) 10 = 0 ∧
      (question name qtype).getD 2 0 = 0 := by
    simp [question, word]
  obtain ⟨hid, hancount, hnscount, harcount, hflags⟩ := hheader
  rw [hancount, hnscount, harcount, hid, hflags]
  dsimp only [skipRrs, findOpt]
  rw [hword, hclass]
  rfl

/-! ## Responses -/

/-- One section's records on the wire, and how many they are. -/
structure Section where
  wire : List UInt8 := []
  count : Nat := 0
deriving DecidableEq, Repr

def Section.append (a b : Section) : Section :=
  ⟨a.wire ++ b.wire, a.count + b.count⟩

/-- What a response says, apart from the question it echoes. -/
structure Reply where
  rcode : Nat
  aa : Bool
  tc : Bool
  answers : Section := {}
  authority : Section := {}
  additional : Section := {}
deriving DecidableEq, Repr

def encodeResponse (query : Query) (reply : Reply) : List UInt8 :=
  bigEndian 2 query.id ++
    [UInt8.ofNat (128 + query.opcode * 8 + reply.aa.toNat * 4 + reply.tc.toNat * 2 +
        query.rd.toNat),
      UInt8.ofNat reply.rcode] ++
    bigEndian 2 1 ++ bigEndian 2 reply.answers.count ++ bigEndian 2 reply.authority.count ++
    bigEndian 2 reply.additional.count ++
    encode query.qname ++ bigEndian 2 query.qtype ++ bigEndian 2 query.qclass ++
    reply.answers.wire ++ reply.authority.wire ++ reply.additional.wire

theorem length_encodeResponse (query : Query) (reply : Reply) :
    (encodeResponse query reply).length =
      16 + encodedLength query.qname + reply.answers.wire.length +
        reply.authority.wire.length + reply.additional.wire.length := by
  simp only [encodeResponse, length_append, length_bigEndian, length_encode,
    length_cons, length_nil]
  omega

/-- The OPT record of responses. -/
def optSection (udpSize : Nat) (doBit : Bool) : Section where
  wire := [0] ++ bigEndian 2 typeOpt ++ bigEndian 2 udpSize ++ [0, 0] ++
    [UInt8.ofNat (doBit.toNat * 128), 0] ++ bigEndian 2 0
  count := 1

def countRrsFrom : Nat → List UInt8 → Nat → Nat → Option Nat
  | 0, _, _, _ => none
  | fuel + 1, blob, offset, acc =>
    if offset = blob.length then some acc
    else do
      let (_, offset) ← decodeName blob offset 0
      let fixed ← slice blob offset 10
      countRrsFrom fuel blob (offset + 10 + word fixed 8) (acc + 1)

/-- The number of records in uncompressed wire form. -/
def countRrs (blob : List UInt8) : Option Nat :=
  countRrsFrom (blob.length + 1) blob 0 0

end Synch.Zone
