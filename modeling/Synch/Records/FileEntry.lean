import Synch.Records.Delegation

/-!
# File entries

One origin's copy of a file, in the record code's postcard form and in the
verified core's reading into the columns of an entries row.  The core reads
integers of 64 bits where the record code reads 32, so it accepts more bytes; on
what the record code reads, the two agree.
-/

namespace Synch.Records

open Synch.Support

def recordVersion : UInt8 := 1

inductive EntryKind where
  | file
  | dir
  | symlink
  | tombstone
  | socket
deriving DecidableEq, Repr

namespace EntryKind

/-- The position of a variant, which stands for it on the wire. -/
def index : EntryKind → Nat
  | file => 0
  | dir => 1
  | symlink => 2
  | tombstone => 3
  | socket => 4

def ofIndex : Nat → Option EntryKind
  | 0 => some file
  | 1 => some dir
  | 2 => some symlink
  | 3 => some tombstone
  | 4 => some socket
  | _ => none

/-- The kinds that carry content addressed by a root. -/
def hasContent : EntryKind → Bool
  | file | socket => true
  | _ => false

theorem ofIndex_index (kind : EntryKind) : ofIndex kind.index = some kind := by
  cases kind <;> rfl

theorem index_le (kind : EntryKind) : kind.index ≤ 4 := by
  cases kind <;> decide

theorem ofIndex_eq_none {n : Nat} (h : n > 4) : ofIndex n = none := by
  match n, h with
  | n + 5, _ => rfl

theorem exists_ofIndex {n : Nat} (h : n ≤ 4) : ∃ kind, ofIndex n = some kind ∧ kind.index = n := by
  match n, h with
  | 0, _ => exact ⟨file, rfl, rfl⟩
  | 1, _ => exact ⟨dir, rfl, rfl⟩
  | 2, _ => exact ⟨symlink, rfl, rfl⟩
  | 3, _ => exact ⟨tombstone, rfl, rfl⟩
  | 4, _ => exact ⟨socket, rfl, rfl⟩

end EntryKind

/-- The one chunking format there is has index zero. -/
structure ChunkParams where
  groupLog2 : UInt8
deriving DecidableEq

def ChunkParams.default : ChunkParams := ⟨4⟩

structure FileEntry where
  v : UInt8
  kind : EntryKind
  size : UInt64
  mtimeNs : Int64
  unixMode : Option UInt32
  content : Option Hash
  chunking : ChunkParams
  seq : UInt64
  prev : Option Hash
  symlinkTarget : Option Text
deriving DecidableEq

namespace FileEntry

def file (size : UInt64) (mtimeNs : Int64) (content : Hash) (seq : UInt64) : FileEntry where
  v := recordVersion
  kind := .file
  size := size
  mtimeNs := mtimeNs
  unixMode := none
  content := some content
  chunking := .default
  seq := seq
  prev := none
  symlinkTarget := none

def tombstone (mtimeNs : Int64) (seq : UInt64) (prev : Option Hash) : FileEntry where
  v := recordVersion
  kind := .tombstone
  size := 0
  mtimeNs := mtimeNs
  unixMode := none
  content := none
  chunking := .default
  seq := seq
  prev := prev
  symlinkTarget := none

def isTombstone (e : FileEntry) : Bool :=
  e.kind == .tombstone

section Wire

variable (postcard : Postcard)

def encode (e : FileEntry) : List UInt8 :=
  postcard.putU8 e.v ++ (postcard.putVariant e.kind.index ++ (postcard.putU64 e.size ++
    (postcard.putI64 e.mtimeNs ++ (postcard.putOption postcard.putU32 e.unixMode ++
    (postcard.putOption postcard.putArray32 e.content ++ (postcard.putVariant 0 ++
    (postcard.putU8 e.chunking.groupLog2 ++ (postcard.putU64 e.seq ++
    (postcard.putOption postcard.putArray32 e.prev ++
      postcard.putOption postcard.putStr e.symlinkTarget)))))))))

/-- The derived deserializer: the fields in their order. -/
def visitSeq : Reader FileEntry := do
  let v ← postcard.takeU8
  let index ← postcard.takeVariant
  match EntryKind.ofIndex index with
  | none => failure
  | some kind =>
    let size ← postcard.takeU64
    let mtimeNs ← postcard.takeI64
    let unixMode ← postcard.takeOption postcard.takeU32
    let content ← postcard.takeOption postcard.takeArray32
    let format ← postcard.takeVariant
    if format != 0 then failure
    else
      let groupLog2 ← postcard.takeU8
      let seq ← postcard.takeU64
      let prev ← postcard.takeOption postcard.takeArray32
      let symlinkTarget ← postcard.takeOption postcard.takeStr
      return ⟨v, kind, size, mtimeNs, unixMode, content, ⟨groupLog2⟩, seq, prev, symlinkTarget⟩

/-- Bytes after the record are ignored. -/
def decodeEntry (bytes : List UInt8) : Option FileEntry :=
  (visitSeq postcard bytes).map Prod.fst

end Wire

theorem reads_encode (e : FileEntry) : Reads (visitSeq .specified) e (e.encode .specified) := by
  have hindex : e.kind.index < 2 ^ 32 :=
    lt_of_le_of_lt e.kind.index_le (by decide)
  rw [← List.append_nil (e.encode .specified), encode]
  simp only [List.append_assoc]
  refine (reads_byte e.v).bind ((reads_varint32 hindex).bind ?_)
  rw [EntryKind.ofIndex_index]
  refine (reads_u64 e.size).bind ((reads_signed e.mtimeNs).bind
    ((reads_option reads_u32 e.unixMode).bind ((reads_option reads_hash e.content).bind
    ((reads_varint32 (by decide : 0 < 2 ^ 32)).bind ?_))))
  refine (reads_byte e.chunking.groupLog2).bind ((reads_u64 e.seq).bind
    ((reads_option reads_hash e.prev).bind ((reads_option reads_text e.symlinkTarget).bind ?_)))
  exact reads_pure e

theorem decodeEntry_encode (e : FileEntry) :
    decodeEntry .specified (e.encode .specified) = some e := by
  have hread := reads_encode e []
  rw [List.append_nil] at hread
  exact congrArg (Option.map Prod.fst) hread

end FileEntry

/-! ## The verified core's reading -/

def version : Decoder Unit := do
  let v ← byte
  if v > 1 then throw s!"record is schema version {v}, past the 1 this build reads"

structure File where
  fields : Fields
  content : Option ByteArray
  size : Nat
  prev : Option ByteArray

def file : Decoder File := do
  version
  let kind ← uint
  if kind > 4 then throw "unknown entry kind"
  let size ← uint
  let mtime ← sint
  let mode ← optional uint
  if mode.any (· > 4294967295) then throw "mode overflow"
  let content ← optional (bytes 32)
  if (← uint) != 0 then throw "unknown chunk format"
  let _ ← byte
  let seq ← uint
  let prev ← optional (bytes 32)
  let target ← optional string
  return ⟨[("kind", .integer kind.toInt64), ("size", .integer size.toUInt64.toInt64),
    ("mtime_ns", .integer mtime),
    ("unix_mode", nullable (fun n => .integer n.toInt64) mode),
    ("content", nullable .blob content), ("seq", .integer seq.toUInt64.toInt64),
    ("prev", nullable .blob prev), ("symlink_target", nullable .text target)],
    content, size, prev⟩

namespace FileEntry

/-- The columns of an entry's row. -/
def columns (e : FileEntry) : Fields :=
  [("kind", .integer e.kind.index.toInt64), ("size", .integer e.size.toInt64),
    ("mtime_ns", .integer e.mtimeNs),
    ("unix_mode", nullable (fun n => .integer n.toNat.toInt64) e.unixMode),
    ("content", nullable .blob (e.content.map fun root => arrayOf root.bytes)),
    ("seq", .integer e.seq.toInt64),
    ("prev", nullable .blob (e.prev.map fun root => arrayOf root.bytes)),
    ("symlink_target", nullable .text (e.symlinkTarget.map Text.value))]

/-- What the core keeps of an entry. -/
def read (e : FileEntry) : File :=
  ⟨e.columns, e.content.map fun root => arrayOf root.bytes, e.size.toNat,
    e.prev.map fun root => arrayOf root.bytes⟩

def readSupported : Reader UInt8 := do
  let v ← readByte
  if v > 1 then failure else pure v

/-- The core's reading over a list. -/
def readCore : Reader FileEntry := do
  let v ← readSupported
  let index ← readVarint
  match EntryKind.ofIndex index with
  | none => failure
  | some kind =>
    let size ← readVarint
    let mtimeNs ← readSigned
    let mode ← readOption readVarint
    if mode.any (· > 4294967295) then failure
    else
      let content ← readOption readHash
      let format ← readVarint
      if format != 0 then failure
      else
        let groupLog2 ← readByte
        let seq ← readVarint
        let prev ← readOption readHash
        let symlinkTarget ← readOption readText
        return ⟨v, kind, UInt64.ofNat size, mtimeNs, mode.map UInt32.ofNat, content,
          ⟨groupLog2⟩, UInt64.ofNat seq, prev, symlinkTarget⟩

theorem follows_supported : Follows (fun _ => ()) version readSupported := by
  apply follows_byte.bind
  intro v
  rw [id]
  by_cases hv : v > 1
  · rw [if_pos hv, if_pos hv]
    exact follows_throw _ _
  · rw [if_neg hv, if_neg hv]
    exact follows_pure (fun _ => ()) v

theorem readBytes_eq_readHash (input : List UInt8) :
    readBytes 32 input = (readHash input).map fun result => (result.1.bytes, result.2) := by
  by_cases hlong : 32 ≤ input.length
  · rw [readBytes, readHash, if_neg (by omega), dif_pos hlong]
    rfl
  · rw [readBytes, readHash, if_pos (by omega), dif_neg hlong]
    rfl

theorem follows_hash : Follows (fun root : Hash => arrayOf root.bytes) (bytes 32) readHash where
  fails := by
    intro input offset hoffset hnone
    apply (follows_bytes 32).fails input offset hoffset
    rw [readBytes_eq_readHash, hnone]
    rfl
  reads := by
    intro input offset root rest hoffset hsome
    apply (follows_bytes 32).reads input offset root.bytes rest hoffset
    rw [readBytes_eq_readHash, hsome]
    rfl

theorem nullable_mode {mode : Option Nat} (h : ¬mode.any (· > 4294967295) = true) :
    nullable (fun n => Cell.integer n.toInt64) mode =
      nullable (fun n : UInt32 => Cell.integer n.toNat.toInt64) (mode.map UInt32.ofNat) := by
  cases mode with
  | none => rfl
  | some n =>
    have hn : n < 2 ^ 32 := by
      have hle : ¬n > 4294967295 := by simpa using h
      omega
    have hword : (UInt32.ofNat n).toNat = n := UInt32.toNat_ofNat_of_lt' hn
    simp only [nullable, Option.map_some, Option.getD_some, hword]

theorem follows_file : Follows FileEntry.read Records.file readCore := by
  apply follows_supported.bind
  intro v
  apply follows_uint.bind
  intro index
  by_cases hindex : index > 4
  · rw [EntryKind.ofIndex_eq_none hindex]
    simp only [id]
    rw [if_pos hindex]
    exact follows_throw _ _
  obtain ⟨kind, hkind, rfl⟩ := EntryKind.exists_ofIndex (by omega : index ≤ 4)
  simp only [id]
  rw [if_neg hindex, hkind]
  apply follows_uint.bind_of_read
  intro size _ _ hsize
  apply follows_sint.bind
  intro mtimeNs
  apply (follows_optional follows_uint).bind
  intro mode
  rw [Option.map_id]
  refine follows_guard fun (hmode : ¬mode.any (· > 4294967295) = true) => ?_
  apply (follows_optional follows_hash).bind
  intro content
  apply follows_uint.bind
  intro format
  refine follows_guard fun _ => ?_
  apply follows_byte.bind
  intro groupLog2
  apply follows_uint.bind
  intro seq
  apply (follows_optional follows_hash).bind
  intro prev
  apply (follows_optional follows_string).bind
  intro target
  have hword : (UInt64.ofNat size).toNat = size :=
    UInt64.toNat_ofNat_of_lt' (readVarint_lt hsize)
  have hread := follows_pure (ε := String) FileEntry.read
    ⟨v, kind, UInt64.ofNat size, mtimeNs, mode.map UInt32.ofNat, content, ⟨groupLog2⟩,
      UInt64.ofNat seq, prev, target⟩
  rw [FileEntry.read, FileEntry.columns] at hread
  rw [hword, ← nullable_mode hmode] at hread
  exact hread

/-- A 32-bit integer is one of 64 bits. -/
theorem readOption_widen {input rest : List UInt8} {mode : Option UInt32}
    (h : readOption readU32 input = some (mode, rest)) :
    ∃ raw, readOption readVarint input = some (raw, rest) ∧
      mode = raw.map UInt32.ofNat ∧ ¬raw.any (· > 4294967295) = true := by
  obtain ⟨rfl, rfl⟩ | ⟨word, body, rfl, rfl, hread⟩ := readOption_eq_some h
  · exact ⟨none, rfl, rfl, by simp⟩
  · obtain ⟨n, afterMode, hn, hpure⟩ := bind_eq_some hread
    cases hpure
    refine ⟨some n, readOption_some (readVarint_of_readVarint32 hn), rfl, ?_⟩
    have hlt := readVarint32_lt hn
    simp only [Option.any_some, decide_eq_true_eq]
    omega

/-- Where the record code reads an entry of a version the core knows, the core
reads the same entry; it refuses one of a later version. -/
theorem readCore_of_visitSeq {input rest : List UInt8} {e : FileEntry}
    (h : visitSeq .specified input = some (e, rest)) :
    readCore input = if e.v > 1 then none else some (e, rest) := by
  dsimp only [visitSeq, Postcard.specified] at h
  obtain ⟨v, afterVersion, hversion, h⟩ := bind_eq_some h
  obtain ⟨index, afterKind, hindex, h⟩ := bind_eq_some h
  cases hkind : EntryKind.ofIndex index with
  | none =>
    rw [hkind] at h
    cases h
  | some kind =>
    rw [hkind] at h
    obtain ⟨sizeWord, afterSize, hsize, h⟩ := bind_eq_some h
    obtain ⟨mtimeNs, afterTime, htime, h⟩ := bind_eq_some h
    obtain ⟨mode, afterMode, hmode, h⟩ := bind_eq_some h
    obtain ⟨content, afterContent, hcontent, h⟩ := bind_eq_some h
    obtain ⟨format, afterFormat, hformat, h⟩ := bind_eq_some h
    by_cases hbao : (format != 0) = true
    · rw [if_pos hbao] at h
      cases h
    rw [if_neg hbao] at h
    obtain ⟨groupLog2, afterGroup, hgroup, h⟩ := bind_eq_some h
    obtain ⟨seqWord, afterSeq, hseq, h⟩ := bind_eq_some h
    obtain ⟨prev, afterPrev, hprev, h⟩ := bind_eq_some h
    obtain ⟨target, afterTarget, htarget, h⟩ := bind_eq_some h
    cases h
    obtain ⟨size, _, hsize, hpure⟩ := bind_eq_some hsize
    cases hpure
    obtain ⟨seq, _, hseq, hpure⟩ := bind_eq_some hseq
    cases hpure
    obtain ⟨raw, hraw, rfl, hsmall⟩ := readOption_widen hmode
    have hsupported : readSupported input =
        if v > 1 then none else some (v, afterVersion) := by
      rw [readSupported, bind_of_some hversion]
      split <;> rfl
    by_cases hv : v > 1
    · rw [if_pos hv] at hsupported ⊢
      exact bind_of_none hsupported
    · rw [if_neg hv] at hsupported ⊢
      rw [readCore, bind_of_some hsupported, bind_of_some (readVarint_of_readVarint32 hindex),
        hkind]
      change (readVarint >>= _) afterKind = _
      rw [bind_of_some hsize, bind_of_some htime, bind_of_some hraw, if_neg hsmall,
        bind_of_some hcontent, bind_of_some (readVarint_of_readVarint32 hformat),
        if_neg hbao, bind_of_some hgroup, bind_of_some hseq, bind_of_some hprev,
        bind_of_some htarget]
      rfl

/-- The core's row for bytes the record code reads. -/
theorem file_of_decodeEntry {postcard : Postcard} (hpostcard : postcard.Documented)
    {input : ByteArray} {e : FileEntry} (h : decodeEntry postcard input.data.toList = some e) :
    (Records.file (input, 0)).toOption.map Prod.fst =
      if e.v > 1 then none else some e.read := by
  rw [hpostcard.eq_specified] at h
  obtain ⟨⟨e', rest⟩, hvisit, rfl⟩ := Option.map_eq_some_iff.mp h
  rw [follows_file.toOption_eq, readCore_of_visitSeq hvisit]
  split <;> rfl

end FileEntry

end Synch.Records
