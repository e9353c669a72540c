import Mathlib.Algebra.Group.Nat.Defs
import Mathlib.Data.Fintype.Basic
import CamkesVm.Machine.Memory

/-!
# CAN frames

The data types of `can_inf.h`. Bit-fields are bit vectors of their declared width, so an
assignment to one truncates as it does in C.
-/

namespace CamkesVm.Can

open CamkesVm.Machine

/-- Bits of the extended part of an identifier. -/
@[simp] def canEidBits : ℕ := 18

/-- Mask of the extended part of an identifier. -/
@[simp] def canEidMask : BitVec 32 := 0x3FFFF

/-- Payload bytes of a frame. -/
abbrev canMaxDlc : ℕ := 8

/-- The CAN arbitration field: 11 identifier bits in a standard frame, 29 in an extended one. -/
structure CanId where
  id : BitVec 29
  exide : BitVec 1
  rtr : BitVec 1
  err : BitVec 1
  deriving DecidableEq

/-- A CAN frame with its transmit priority, data length code and payload. -/
structure CanFrame where
  ident : CanId
  prio : BitVec 2
  dlc : BitVec 4
  data : Bytes canMaxDlc
  deriving DecidableEq

/-- An identifier whose value fits its kind. The extended kind uses the whole bit-field. -/
def CanId.Fits (ident : CanId) : Prop := ident.exide = 0 → ident.id.toNat < 2 ^ 11

/-- A flag bit-field is clear or set. -/
theorem flag_eq_zero_or_one (flag : BitVec 1) : flag = 0 ∨ flag = 1 := by
  revert flag
  decide

end CamkesVm.Can
