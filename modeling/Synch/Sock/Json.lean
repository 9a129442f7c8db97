import Mathlib.Algebra.Group.Nat.Defs
import Mathlib.Algebra.GroupWithZero.Nat
import Synch.Tuf.Value

/-!
# The size charged for a JSON value

A value that a socket program holds is charged an estimate of its text.  The estimate rounds
strings, keys, literals and brackets up, and neither looks at the digits of a number nor at the
characters that the text has to escape.
-/

namespace Synch.Sock

open List Synch.Tuf

/-! ## The charge -/

def maxJsonBytes : Nat := 64 * 1024

def maxJsonDepth : Nat := 64

def saturatingAdd (a b : Nat) : Nat :=
  min (a + b) (2 ^ 64 - 1)

/-- The bounds on every value of a walk; without a size the walk fails with `ELIMIT`. -/
def bounded (depth : Nat) (bytes : Option Nat) : Option Nat :=
  if depth > maxJsonDepth then none
  else bytes.filter fun bytes => bytes ≤ maxJsonBytes

mutual

def walk (depth : Nat) : Value → Option Nat
  | .null | .bool _ | .number _ => bounded depth (some 8)
  | .string text => bounded depth (some (16 + text.utf8ByteSize))
  | .array items => bounded depth (walkItems (depth + 1) 16 items)
  | .object members => bounded depth (walkMembers (depth + 1) 16 members)

def walkItems (depth total : Nat) : List Value → Option Nat
  | [] => some total
  | item :: items => do
    let bytes ← walk depth item
    walkItems depth (saturatingAdd total bytes) items

def walkMembers (depth total : Nat) : List (String × Value) → Option Nat
  | [] => some total
  | (key, item) :: members => do
    let bytes ← walk depth item
    walkMembers depth (saturatingAdd (saturatingAdd total (16 + key.utf8ByteSize)) bytes) members

end

def jsonSize (value : Value) : Option Nat :=
  walk 0 value

/-! ## The text -/

/-- A character in a string, as the library documents it. -/
def escapeJson (c : Char) : List Char :=
  if c = '"' then ['\\', '"']
  else if c = '\\' then ['\\', '\\']
  else if c = '\x08' then ['\\', 'b']
  else if c = '\t' then ['\\', 't']
  else if c = '\n' then ['\\', 'n']
  else if c = '\x0c' then ['\\', 'f']
  else if c = '\r' then ['\\', 'r']
  else if c.toNat < 32 then
    ['\\', 'u', '0', '0', Nat.digitChar (c.toNat / 16), Nat.digitChar (c.toNat % 16)]
  else [c]

def quoted (text : String) : List Char :=
  '"' :: text.toList.flatMap escapeJson ++ ['"']

/-- What is written at once: a mark, a literal or a number, with what is charged for it, a string,
or a key with its colon. -/
inductive Token where
  | plain (text : String) (charge : Nat)
  | string (text : String)
  | key (text : String)

def Token.text : Token → List Char
  | .plain text _ => text.toList
  | .string text => quoted text
  | .key text => quoted text ++ [':']

def separator (first : Bool) : List Token :=
  if first then [] else [.plain "," 0]

mutual

def tokens : Value → List Token
  | .null => [.plain "null" 8]
  | .bool value => [.plain (if value then "true" else "false") 8]
  | .number number => [.plain number.text 8]
  | .string text => [.string text]
  | .array items => .plain "[" 16 :: itemTokens true items ++ [.plain "]" 0]
  | .object members => .plain "\x7b" 16 :: memberTokens true members ++ [.plain "\x7d" 0]

def itemTokens (first : Bool) : List Value → List Token
  | [] => []
  | item :: items => separator first ++ tokens item ++ itemTokens false items

def memberTokens (first : Bool) : List (String × Value) → List Token
  | [] => []
  | (key, item) :: members =>
    separator first ++ .key key :: tokens item ++ memberTokens false members

end

/-- The compact text of a value. -/
def stringify (value : Value) : List Char :=
  (tokens value).flatMap Token.text

def textSize (text : List Char) : Nat :=
  (String.ofList text).utf8ByteSize

/-- The bytes that escapes add to a string. -/
def escapeBytes (text : String) : Nat :=
  (text.toList.map fun c => (escapeJson c).length - 1).sum

/-- What is charged no matter how long it is: marks, literals, numbers and escapes. -/
def Token.takes : Token → Nat
  | .plain text _ => text.utf8ByteSize
  | .string text | .key text => escapeBytes text

/-- What the charge leaves for that, with quotes and colons paid. -/
def Token.leaves : Token → Nat
  | .plain _ charge => charge
  | .string _ => 14
  | .key _ => 13

def Token.charge : Token → Nat
  | .plain _ charge => charge
  | .string text | .key text => 16 + text.utf8ByteSize

def total (amount : Token → Nat) (tokens : List Token) : Nat :=
  (tokens.map amount).sum

/-! ## The text and the charge -/

@[simp] theorem textSize_append (text text' : List Char) :
    textSize (text ++ text') = textSize text + textSize text' := by
  simp [textSize, String.utf8ByteSize_append]

@[simp] theorem textSize_cons (c : Char) (text : List Char) :
    textSize (c :: text) = c.utf8Size + textSize text := by
  simp [textSize, String.utf8ByteSize_ofList]

@[simp] theorem textSize_toList (text : String) : textSize text.toList = text.utf8ByteSize := by
  rw [textSize, String.ofList_toList]

theorem textSize_escapeJson (c : Char) :
    textSize (escapeJson c) = c.utf8Size + ((escapeJson c).length - 1) := by
  have hhex : ∀ n < 16, (Nat.digitChar n).utf8Size = 1 := by decide
  unfold escapeJson
  split_ifs with _ _ _ _ _ _ _ hcontrol
  iterate 7
    · subst_vars
      rfl
  · have hone : c.utf8Size = 1 := Char.utf8Size_eq_one_iff.mpr
      (UInt32.le_iff_toNat_le.mpr (Nat.le_of_lt (hcontrol.trans (by decide))))
    simp only [textSize_cons, hhex (c.toNat / 16) (by omega), hhex (c.toNat % 16) (by omega), hone]
    rfl
  · rw [textSize_cons]
    rfl

theorem textSize_quoted (text : String) :
    textSize (quoted text) = text.utf8ByteSize + escapeBytes text + 2 := by
  rw [← textSize_toList, quoted, escapeBytes]
  induction text.toList with
  | nil => rfl
  | cons c chars ih =>
    have hescape := textSize_escapeJson c
    simp at ih ⊢
    omega

theorem Token.textSize_text (token : Token) :
    textSize token.text + token.leaves = token.charge + token.takes := by
  unfold Token.text Token.leaves Token.charge Token.takes
  cases token with
  | plain text charge => simp [Nat.add_comm]
  | string text =>
    simp only [textSize_quoted]
    omega
  | key text =>
    have hcolon : textSize [':'] = 1 := rfl
    simp only [textSize_append, textSize_quoted, hcolon]
    omega

theorem textSize_flatMap (tokens : List Token) :
    textSize (tokens.flatMap Token.text) + total Token.leaves tokens =
      total Token.charge tokens + total Token.takes tokens := by
  induction tokens with
  | nil => rfl
  | cons token tokens ih =>
    have htoken := token.textSize_text
    simp [total] at ih ⊢
    omega

theorem bounded_eq_some {depth size : Nat} {bytes : Option Nat}
    (h : bounded depth bytes = some size) : bytes = some size ∧ size ≤ maxJsonBytes := by
  simp only [bounded, Option.ite_none_left_eq_some, Option.filter_eq_some_iff,
    decide_eq_true_eq] at h
  exact h.2

theorem walk_le {depth size : Nat} {value : Value} (h : walk depth value = some size) :
    size ≤ maxJsonBytes := by
  cases value <;> exact (bounded_eq_some h).2

/-- Sums within the bound have not saturated. -/
theorem saturatingAdd_eq {a b size : Nat} (h : saturatingAdd a b ≤ size)
    (hsize : size ≤ maxJsonBytes) : saturatingAdd a b = a + b := by
  simp only [saturatingAdd, maxJsonBytes] at *
  omega

mutual

theorem walk_eq_charge {depth size : Nat} : ∀ {value : Value}, walk depth value = some size →
    size = total Token.charge (tokens value)
  | .null, h | .bool _, h | .number _, h | .string _, h => by
    cases (bounded_eq_some h).1
    rfl
  | .array items, h => by
    obtain ⟨h, hsize⟩ := bounded_eq_some h
    have hitems := walkItems_eq_charge true h hsize
    simpa [tokens, total, Token.charge] using hitems
  | .object members, h => by
    obtain ⟨h, hsize⟩ := bounded_eq_some h
    have hmembers := walkMembers_eq_charge true h hsize
    simpa [tokens, total, Token.charge] using hmembers

theorem walkItems_eq_charge {depth start size : Nat} (first : Bool) : ∀ {items : List Value},
    walkItems depth start items = some size → size ≤ maxJsonBytes →
      size = start + total Token.charge (itemTokens first items)
  | [], h, _ => by
    cases h
    rfl
  | item :: items, h, hsize => by
    obtain ⟨bytes, hbytes, h⟩ := Option.bind_eq_some_iff.mp h
    have hitem := walk_eq_charge hbytes
    have hitems := walkItems_eq_charge false h hsize
    rw [saturatingAdd_eq (by omega) hsize] at hitems
    cases first <;> simp [itemTokens, separator, total, Token.charge] at hitem hitems ⊢ <;> omega

theorem walkMembers_eq_charge {depth start size : Nat} (first : Bool) :
    ∀ {members : List (String × Value)},
      walkMembers depth start members = some size → size ≤ maxJsonBytes →
        size = start + total Token.charge (memberTokens first members)
  | [], h, _ => by
    cases h
    rfl
  | (key, item) :: members, h, hsize => by
    obtain ⟨bytes, hbytes, h⟩ := Option.bind_eq_some_iff.mp h
    have hitem := walk_eq_charge hbytes
    have hmembers := walkMembers_eq_charge false h hsize
    rw [saturatingAdd_eq (by omega) hsize, saturatingAdd_eq (by omega) hsize] at hmembers
    cases first <;> simp [memberTokens, separator, total, Token.charge] at hitem hmembers ⊢ <;> omega

end

end Synch.Sock
