import Synch.Records.FileEntry

/-!
# Blob advertisements

What an origin says it holds of an object: the object's size and the byte spans
held.
-/

namespace Synch.Records

open Synch.Support

/-- The most spans one advertisement may carry. -/
def maxAdSpans : Nat := 1024

structure BlobAd where
  v : UInt8
  size : UInt64
  spans : List (UInt64 × UInt64)
deriving DecidableEq

namespace BlobAd

def complete (size : UInt64) : BlobAd where
  v := recordVersion
  size := size
  spans := if size = 0 then [] else [(0, size)]

/-- One span reaches from nothing to the object's end. -/
def isComplete (ad : BlobAd) : Bool :=
  ad.size == 0 ||
    match ad.spans with
    | [(start, stop)] => start == 0 && ad.size ≤ stop
    | _ => false

theorem isComplete_complete (size : UInt64) : (complete size).isComplete = true := by
  by_cases hsize : size = 0
  · simp [isComplete, complete, hsize]
  · simp [isComplete, complete, hsize]

section Wire

variable (postcard : Postcard)

def putSpan (span : UInt64 × UInt64) : List UInt8 :=
  postcard.putU64 span.1 ++ postcard.putU64 span.2

def takeSpan : Reader (UInt64 × UInt64) := do
  let start ← postcard.takeU64
  let stop ← postcard.takeU64
  return (start, stop)

def encode (ad : BlobAd) : List UInt8 :=
  postcard.putU8 ad.v ++ (postcard.putU64 ad.size ++ postcard.putSeq (putSpan postcard) ad.spans)

/-- Spans past the cap are read and dropped. -/
def visitSeq : Reader BlobAd := do
  let v ← postcard.takeU8
  let size ← postcard.takeU64
  let spans ← postcard.takeSeq (takeSpan postcard)
  return ⟨v, size, spans.take maxAdSpans⟩

def decode (bytes : List UInt8) : Option BlobAd :=
  (visitSeq postcard bytes).map Prod.fst

end Wire

theorem reads_span (span : UInt64 × UInt64) :
    Reads (takeSpan .specified) span (putSpan .specified span) := by
  rw [← List.append_nil (putSpan .specified span), putSpan, List.append_assoc]
  refine (reads_u64 span.1).bind ((reads_u64 span.2).bind ?_)
  exact reads_pure span

theorem reads_encode {ad : BlobAd} (h : ad.spans.length ≤ maxAdSpans) :
    Reads (visitSeq .specified) ad (ad.encode .specified) := by
  have hlength : ad.spans.length < 2 ^ 64 := lt_of_le_of_lt h (by decide)
  rw [← List.append_nil (ad.encode .specified), encode]
  simp only [List.append_assoc]
  refine (reads_byte ad.v).bind ((reads_u64 ad.size).bind ((reads_seq reads_span hlength).bind ?_))
  rw [List.take_of_length_le h]
  exact reads_pure ad

theorem decode_encode {postcard : Postcard} (hpostcard : postcard.Documented) {ad : BlobAd}
    (h : ad.spans.length ≤ maxAdSpans) : decode postcard (ad.encode postcard) = some ad := by
  rw [hpostcard.eq_specified]
  have hread := reads_encode h []
  rw [List.append_nil] at hread
  exact congrArg (Option.map Prod.fst) hread

theorem length_spans_complete (size : UInt64) : (complete size).spans.length ≤ maxAdSpans := by
  rw [complete]
  split <;> simp [maxAdSpans]

end BlobAd

end Synch.Records
