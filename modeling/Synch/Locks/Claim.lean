import Mathlib.Data.Prod.Lex
import Mathlib.Data.String.Basic

/-!
# Claims on a cluster lock

The data of the lock exchange (`synch-core`, `lock.rs`).  A claim is named by a
ticket and a nonce; claims are ordered by Lamport value, then origin, then
nonce.  Origins are an arbitrary linear order: the exchange only compares them.
-/

namespace Synch.Locks

/-! ## Bounds of one answer and one claim -/

def maxLockReports : Nat := 64
def maxLockEnded : Nat := 256
def maxLockWatermarks : Nat := 8
def maxLockSupersedes : Nat := 16

/-- A lock's name: the space that authorizes it and a name inside it. -/
structure LockName where
  space : String
  name : String
deriving DecidableEq, Repr

namespace LockName

def key (lock : LockName) : String ×ₗ String :=
  toLex (lock.space, lock.name)

theorem key_injective : Function.Injective key := by
  rintro ⟨space, name⟩ ⟨space', name'⟩ h
  simpa [key] using h

instance : LinearOrder LockName :=
  LinearOrder.lift' key key_injective

instance : Std.LawfulEqOrd LockName where
  eq_of_compare := compare_eq_iff_eq.mp

end LockName

/-- A claim's place in the total order: Lamport time, then origin. -/
structure Ticket (Origin : Type) where
  lamport : UInt64
  origin : Origin
deriving DecidableEq, Repr

/-- A claim's identity: its ticket and a random nonce. -/
structure ClaimId (Origin : Type) where
  ticket : Ticket Origin
  nonce : UInt64
deriving DecidableEq, Repr

namespace ClaimId

variable {Origin : Type}

def key (id : ClaimId Origin) : Nat ×ₗ Origin ×ₗ Nat :=
  toLex (id.ticket.lamport.toNat, toLex (id.ticket.origin, id.nonce.toNat))

theorem key_injective : Function.Injective (key : ClaimId Origin → _) := by
  rintro ⟨⟨lamport, origin⟩, nonce⟩ ⟨⟨lamport', origin'⟩, nonce'⟩ h
  simpa [key, UInt64.toNat_inj, and_assoc] using h

instance [LinearOrder Origin] : LinearOrder (ClaimId Origin) :=
  LinearOrder.lift' key key_injective

instance [LinearOrder Origin] : Std.LawfulEqOrd (ClaimId Origin) where
  eq_of_compare := compare_eq_iff_eq.mp

end ClaimId

structure Claim (Origin : Type) where
  id : ClaimId Origin
  ttlMs : UInt32
  owner : String
  payload : List UInt8
  supersedes : List (ClaimId Origin)
deriving DecidableEq, Repr

/-- What a reporting node knows of a claim. -/
inductive ClaimState where
  | expired
  | live
  | held
deriving DecidableEq, Repr

namespace ClaimState

def rank : ClaimState → Nat
  | expired => 0
  | live => 1
  | held => 2

theorem rank_injective : Function.Injective rank := by
  intro a b h
  cases a <;> cases b <;> simp_all [rank]

instance : LinearOrder ClaimState :=
  LinearOrder.lift' rank rank_injective

theorem le_held (state : ClaimState) : state ≤ held := by
  cases state <;> decide

end ClaimState

structure Report (Origin : Type) where
  claim : Claim Origin
  state : ClaimState
  remainingMs : UInt32
deriving DecidableEq, Repr

inductive EndReason where
  | released
  | withdrawn
  | superseded
  | broken
deriving DecidableEq, Repr

/-- A releaser's published head at release. -/
structure Watermark (Origin : Type) where
  origin : Origin
  seq : UInt64
deriving DecidableEq, Repr

inductive LockMessage (Origin : Type) where
  | claim (lock : LockName) (claim : Claim Origin)
  | renew (lock : LockName) (claim : Claim Origin)
  | ended (lock : LockName) (id : ClaimId Origin) (reason : EndReason)
      (watermark : Option (Watermark Origin))
  | inspect (lock : LockName)
  | answer (reports : List (Report Origin))
      (ended : List (ClaimId Origin × EndReason))
      (watermarks : List (Watermark Origin))
  | ack
  | refused (reason : String)
deriving DecidableEq, Repr

/-- Who renews a hold. -/
inductive HoldMode where
  | session
  | lease
  | sticky
deriving DecidableEq, Repr

/-- Why a hold was lost. -/
inductive Lost (Origin : Type) where
  | ended (reason : EndReason)
  | superseded (id : ClaimId Origin)
deriving DecidableEq, Repr

end Synch.Locks
