import Oberon.Code.Instr
import Oberon.Machine.Fault
import Oberon.Machine.Scalar
import Oberon.Number.Word

/-!
# Arithmetic

Integer operations compute in 64 bits and wrap to the width of their operands. Division
rounds toward zero, and dividing by zero is the only fault. Element addresses check every
index against its dimension, the first one apart, which steps over whole values.
-/

namespace Oberon.Machine

open Code

/-- An operation on two integers. -/
def integerOp (op : BinOp) (lhs rhs : Int64) : Except Fault Int64 :=
  match op with
  | .add => .ok (lhs + rhs)
  | .sub => .ok (lhs - rhs)
  | .mul => .ok (lhs * rhs)
  | .sdiv => if rhs = 0 then .error .divisionByZero else .ok (lhs / rhs)
  | .srem => if rhs = 0 then .error .divisionByZero else .ok (lhs % rhs)
  | .and => .ok (lhs &&& rhs)
  | .or => .ok (lhs ||| rhs)
  | .xor => .ok (lhs ^^^ rhs)
  | .fadd | .fsub | .fmul | .fdiv => .error (.malformed "real operation on integers")

/-- An operation on two doubles. -/
def realOp (op : BinOp) (lhs rhs : Double) : Except Fault Double :=
  match op with
  | .fadd => .ok (lhs.add rhs)
  | .fsub => .ok (lhs.sub rhs)
  | .fmul => .ok (lhs.mul rhs)
  | .fdiv => .ok (lhs.div rhs)
  | _ => .error (.malformed "integer operation on reals")

/-- An operation on two scalars of a width. -/
def binary (op : BinOp) (bits : Nat) : Scalar → Scalar → Except Fault Scalar
  | .int lhs, .int rhs => do
    let value ← integerOp op lhs rhs
    pure (.int (Word.wrap bits value))
  | .real lhs, .real rhs => do
    let value ← realOp op lhs rhs
    pure (.real value)
  | _, _ => .error (.malformed "mixed operand types")

/-- The width in which an operation on values of a type is carried out. -/
def widthOf : Ty → Nat
  | .int bits => bits
  | _ => 64

/-- Whether a comparison of integers holds. -/
def intHolds (predicate : IntPredicate) (lhs rhs : Int64) : Bool :=
  match predicate with
  | .eq => lhs = rhs
  | .ne => lhs ≠ rhs
  | .slt => lhs < rhs
  | .sle => lhs ≤ rhs
  | .sgt => rhs < lhs
  | .sge => rhs ≤ lhs

/-- Whether a comparison of doubles holds; with a NaN none does. -/
def realHolds (predicate : RealPredicate) (lhs rhs : Double) : Bool :=
  match lhs.compare? rhs with
  | none => false
  | some order =>
    match predicate with
    | .oeq => order == .eq
    | .one => order != .eq
    | .olt => order == .lt
    | .ole => order != .gt
    | .ogt => order == .gt
    | .oge => order != .lt

/-- The number of bytes from one value of a type to the next. -/
def stride (ty : Ty) : Except Fault Int64 :=
  match ty.size? with
  | some size => .ok (Int64.ofNat size)
  | none => .error (.malformed ("type " ++ ty.text ++ " has no size"))

/-- The distance to an element from the start of an array. -/
def elementOffset : Ty → List Int64 → Except Fault Int64
  | _, [] => .ok 0
  | .array length element, index :: rest =>
    if index < 0 || Int64.ofNat length ≤ index then .error (.indexOutOfRange index)
    else do
      let each ← stride element
      let inner ← elementOffset element rest
      pure (index * each + inner)
  | ty, _ :: _ => .error (.malformed ("cannot index into " ++ ty.text))

/-- The address of an element. -/
def elementAddress (ty : Ty) (base : Int64) : List Int64 → Except Fault Int64
  | [] => .ok base
  | first :: rest => do
    let each ← stride ty
    let inner ← elementOffset ty rest
    pure (base + (first * each + inner))

end Oberon.Machine
