import Mathlib.Data.List.Sort
import Mathlib.Data.String.Basic
import Mathlib.Algebra.Group.Int.Defs
import Synch.Support.Fallible

/-!
# JSON values and their canonical form

Signatures of the metadata are over the canonical form of a JSON value: members in the order of
their keys, no white space, quotes and backslashes escaped and nothing else, whole numbers only.
-/

namespace Synch.Tuf

open Synch.Support

/-- A number: one of 64 bits with or without sign, or else a floating-point number. -/
inductive Number where
  | whole (value : Int) (range : -2 ^ 63 ≤ value ∧ value < 2 ^ 64)
  | float (text : String)
deriving DecidableEq

namespace Number

def asI64 : Number → Option Int
  | .whole value _ => if value < 2 ^ 63 then some value else none
  | .float _ => none

def asU64 : Number → Option Nat
  | .whole value _ => if 0 ≤ value then some value.toNat else none
  | .float _ => none

def text : Number → String
  | .whole value _ => value.repr
  | .float text => text

end Number

/-- A value.  The members of an object are in the order they were inserted in. -/
inductive Value where
  | null
  | bool (value : Bool)
  | number (value : Number)
  | string (value : String)
  | array (items : List Value)
  | object (members : List (String × Value))

namespace Value

def get? (value : Value) (key : String) : Option Value :=
  match value with
  | .object members => members.lookup key
  | _ => none

/-- The member of an object, or null. -/
def get (value : Value) (key : String) : Value :=
  (value.get? key).getD .null

def asStr : Value → Option String
  | .string value => some value
  | _ => none

def asU64 : Value → Option Nat
  | .number value => value.asU64
  | _ => none

def asArray : Value → Option (List Value)
  | .array items => some items
  | _ => none

def asObject : Value → Option (List (String × Value))
  | .object members => some members
  | _ => none

def isNull : Value → Bool
  | .null => true
  | _ => false

end Value

/-! ## The canonical form -/

def escape (c : Char) : List Char :=
  if c = '"' then ['\\', '"']
  else if c = '\\' then ['\\', '\\']
  else [c]

/-- Quotes and backslashes escaped, nothing else. -/
def writeString (text : String) : List Char :=
  '"' :: text.toList.flatMap escape ++ ['"']

def writeNumber (number : Number) : Except String (List Char) :=
  match number.asI64 with
  | some n => .ok n.repr.toList
  | none =>
    match number.asU64 with
    | some n => .ok n.repr.toList
    | none => .error s!"{number.text} is not a whole number"

/-- In the order of the keys. -/
def sortMembers {α : Type} (members : List (String × α)) : List (String × α) :=
  members.insertionSort fun a b => a.1 ≤ b.1

def writeArray (items : List (List Char)) : List Char :=
  '[' :: [','].intercalate items ++ [']']

def writeObject (members : List (List Char)) : List Char :=
  '{' :: [','].intercalate members ++ ['}']

/-- A key and what is written for its value. -/
def writeMember (key : String) (text : List Char) : List Char :=
  writeString key ++ ':' :: text

mutual

def writeCanonical : Value → Except String (List Char)
  | .null => .ok "null".toList
  | .bool true => .ok "true".toList
  | .bool false => .ok "false".toList
  | .number number => writeNumber number
  | .string text => .ok (writeString text)
  | .array items => do return writeArray (← writeItems items)
  | .object members => do
    -- the loop runs over the sorted keys, so the first of these that fails is reported
    let texts ← (sortMembers (writeMembers members)).mapM fun (key, text) => do
      return writeMember key (← text)
    return writeObject texts

def writeItems : List Value → Except String (List (List Char))
  | [] => .ok []
  | item :: items => do
    let text ← writeCanonical item
    let texts ← writeItems items
    return text :: texts

/-- What is written for the value of each key. -/
def writeMembers : List (String × Value) → List (String × Except String (List Char))
  | [] => []
  | (key, value) :: members => (key, writeCanonical value) :: writeMembers members

end

def canonicalJson (value : Value) : Except String (List UInt8) := do
  let out ← writeCanonical value
  return (String.ofList out).toByteArray.data.toList

end Synch.Tuf
