import Synch.Hash
import Synch.Support.Fallible

/-!
# The DER reader

A narrow reader of definite-length DER over bytes that an attacker chose.  A
reader is the bytes that are left of it, and each read returns what it found
together with the reader after it.
-/

namespace Synch.Transparency

open Synch.Support

/-- Why a certificate could not be read. -/
structure X509Error where
  why : String
deriving DecidableEq, Repr

def X509Error.text (error : X509Error) : String :=
  let why := error.why
  s!"certificate: {why}"

/-- The contents of one definite-length element that are still to be read. -/
abbrev Der := List UInt8

namespace Der

variable (what : String)

/-- The length that an element's header gives, with the bytes after the header. -/
def bodyLength (first : UInt8) (rest : Der) : Except X509Error (Nat × Der) :=
  let bad (why : String) : X509Error := ⟨s!"{what}: {why}"⟩
  if first < 0x80 then
    .ok (first.toNat, rest)
  else if first = 0x80 then
    .error (bad "indefinite lengths are not DER")
  else
    let count := (first &&& 0x7f).toNat
    let digits := rest.take count
    if count > 4 then
      .error (bad "length is absurdly long")
    else if rest.length < count then
      .error (bad "truncated length")
    else if digits.headD 0 = 0 then
      .error (bad "a non-minimal length is not DER")
    else if count = 1 ∧ digits.headD 0 < 0x80 then
      .error (bad "a long-form length under 128 is not DER")
    else
      .ok (digits.foldl (fun length digit => length * 256 + digit.toNat) 0, rest.drop count)

variable (reader : Der)

/-- The next element, as its tag and contents. -/
def next : Except X509Error ((UInt8 × List UInt8) × Der) :=
  let bad (why : String) : X509Error := ⟨s!"{what}: {why}"⟩
  match reader with
  | [] => .error (bad "truncated")
  | [_] => .error (bad "truncated length")
  | tag :: first :: rest => do
    let (length, after) ← bodyLength what first rest
    refuseIf (after.length < length) (bad "element runs past the end")
    return ((tag, after.take length), after.drop length)

/-- The contents of an element that must carry a tag. -/
def contents (tag : UInt8) (what : String) (element : UInt8 × List UInt8) :
    Except X509Error (List UInt8) :=
  if element.1 = tag then
    .ok element.2
  else
    let expected := String.ofList (hexDigits tag)
    let actual := String.ofList (hexDigits element.1)
    .error ⟨s!"{what}: expected tag 0x{expected}, found 0x{actual}"⟩

/-- The next element, which must carry a tag. -/
def tagged (tag : UInt8) (what : String) (reader : Der) : Except X509Error (List UInt8 × Der) := do
  let (element, reader) ← next what reader
  let body ← contents tag what element
  return (body, reader)

/-- The next element if it carries a tag; otherwise the reader is untouched. -/
def optional (tag : UInt8) (reader : Der) : Option (List UInt8) × Der :=
  match next "optional" reader with
  | .ok ((actual, body), rest) => if actual = tag then (some body, rest) else (none, reader)
  | .error _ => (none, reader)

/-- A reader over the next element's contents, which must be a sequence. -/
def sequence : Except X509Error (Der × Der) :=
  tagged 0x30 what reader

/-- Every member is accounted for. -/
def finish : Except X509Error Unit :=
  refuseIf (reader ≠ []) ⟨s!"bytes after {what}"⟩

/-- The sequence that this reader holds, with nothing after it. -/
def onlySequence : Except X509Error Der := do
  let (inner, reader) ← sequence what reader
  finish what reader
  return inner

/-- The next sequence including its own header. -/
def rawSequence : Except X509Error (List UInt8 × Der) := do
  let (_, rest) ← tagged 0x30 what reader
  return (reader.take (reader.length - rest.length), rest)

/-- Skip one element of any tag. -/
def any : Except X509Error (List UInt8 × Der) := do
  let ((_, body), reader) ← next what reader
  return (body, reader)

/-! ## Loops -/

theorem length_le_of_bodyLength {what : String} {first : UInt8} {rest after : Der} {length : Nat}
    (h : bodyLength what first rest = .ok (length, after)) : after.length ≤ rest.length := by
  simp only [bodyLength] at h
  split_ifs at h <;> injection h with h <;> injection h with _ h <;> subst h
  · exact Nat.le_refl _
  · rw [List.length_drop]
    exact Nat.sub_le _ _

/-- An element takes at least its header. -/
theorem length_lt_of_next {what : String} {reader rest : Der} {element : UInt8 × List UInt8}
    (h : next what reader = .ok (element, rest)) : rest.length < reader.length := by
  match reader with
  | [] => cases h
  | [_] => cases h
  | tag :: first :: body =>
    simp only [next, bind_eq_ok_iff] at h
    obtain ⟨⟨length, after⟩, hlength, _, _, hdone⟩ := h
    injection hdone with hdone
    have hrest : after.drop length = rest := congrArg Prod.snd hdone
    have hafter := length_le_of_bodyLength hlength
    rw [← hrest, List.length_drop, List.length_cons, List.length_cons]
    omega

/-- Read elements until none is left. -/
def elements {α : Type} (what : String) (parse : UInt8 × List UInt8 → Except X509Error α)
    (reader : Der) : Except X509Error (List α) :=
  if reader = [] then
    .ok []
  else
    match h : next what reader with
    | .error why => .error why
    | .ok (element, rest) =>
      have := length_lt_of_next h
      do
        let first ← parse element
        let others ← elements what parse rest
        return first :: others
termination_by reader.length

end Der

/-! ## Writing -/

/-- The shortest encoding of a length. -/
def lengthBytes (length : Nat) : List UInt8 :=
  if length < 0x80 then
    [UInt8.ofNat length]
  else
    let digits := ((List.range 8).map fun i => UInt8.ofNat (length / 256 ^ (7 - i))).dropWhile
      (· = 0)
    (0x80 ||| UInt8.ofNat digits.length) :: digits

/-- A tag, a length and a value. -/
def tlv (tag : UInt8) (body : List UInt8) : List UInt8 :=
  tag :: lengthBytes body.length ++ body

end Synch.Transparency
