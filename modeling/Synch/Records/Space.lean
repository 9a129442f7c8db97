import Mathlib.Data.List.Basic

/-!
# Space names

A space name is checked twice, by the record code when it builds or reads a key
and by the verified core when it reads a record.  The two checks agree.
-/

namespace Synch.Records

/-- Why a path has no canonical form. -/
inductive PathError where
  | empty
  | leadingSlash
  | emptyComponent
  | dotComponent
  | controlCharacter
  | tooLong
deriving DecidableEq, Repr

inductive KeyError where
  | space (name : String)
  | path (reason : PathError)
  | malformed
  | tooLong
deriving Repr, DecidableEq

/-- The characters of the control category. -/
def isControl (c : Char) : Bool :=
  c.toNat ≤ 0x1f || (0x7f ≤ c.toNat && c.toNat ≤ 0x9f)

/-- Validates a space id: non-empty, at most 63 bytes, no slash, no control
characters. -/
def validateSpace (space : String) : Except KeyError Unit :=
  let ok := !space.isEmpty && space.utf8ByteSize ≤ 63 && !space.toList.contains '/' &&
    !space.toList.any isControl
  if ok then .ok () else .error (.space space)

/-- The verified core's control characters. -/
def control (c : Char) : Bool :=
  c.toNat < 32 || (127 ≤ c.toNat && c.toNat ≤ 159)

/-- The verified core's check of a space name. -/
def validSpace (text : String) : Bool :=
  !text.isEmpty && text.utf8ByteSize ≤ 63 && !text.toList.contains '/' && !text.toList.any control

theorem control_eq_isControl (c : Char) : control c = isControl c := by
  have hbound : decide (c.toNat < 32) = decide (c.toNat ≤ 0x1f) :=
    decide_eq_decide.mpr (by omega)
  rw [control, isControl, hbound]

theorem isOk_validateSpace (space : String) : (validateSpace space).isOk = validSpace space := by
  have hcontrol : control = isControl := funext control_eq_isControl
  rw [validateSpace, validSpace, hcontrol]
  split
  · rename_i hok
    exact hok.symm
  · rename_i hbad
    exact (Bool.eq_false_iff.mpr hbad).symm

/-- A valid space name does not hold a line break. -/
theorem newline_notMem_of_validSpace {space : String} (h : validSpace space = true) :
    '\n' ∉ space.toList := by
  intro hmem
  have hcontrol : space.toList.any control = true :=
    List.any_eq_true.mpr ⟨'\n', hmem, by decide⟩
  rw [validSpace, hcontrol] at h
  simp at h

end Synch.Records
