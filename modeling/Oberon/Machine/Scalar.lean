import Oberon.Number.Double

/-!
# Scalars

What a temporary holds while a program runs. Addresses are integers. An integer of fewer than
64 bits is kept sign-extended, so the truth value of one bit is -1.
-/

namespace Oberon.Machine

/-- A value of a running program. -/
inductive Scalar where
  | int (value : Int64)
  | real (value : Double)
  deriving DecidableEq

namespace Scalar

/-- A truth value. -/
def ofBool (b : Bool) : Scalar :=
  .int (if b then -1 else 0)

/-- An address. -/
def ofAddress (address : Nat) : Scalar :=
  .int (Int64.ofNat address)

/-- The 64 bits of a scalar. -/
def bits : Scalar → UInt64
  | .int value => value.toUInt64
  | .real value => value.bits

end Scalar

/-- The address that an integer stands for. -/
def addressOf (v : Int64) : Nat :=
  v.toUInt64.toNat

end Oberon.Machine
