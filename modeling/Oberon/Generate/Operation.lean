import Oberon.Generate.Emission
import Oberon.Syntax

/-!
# Operations on values

Conversions between scalar types, arithmetic and comparisons. Two operands first meet in
their common type. Conversion to BOOLEAN compares with zero; other integers are widened by
sign extension and narrowed by truncation.
-/

namespace Oberon.Emit

open Code

/-- The truth value of a number: whether it differs from zero. -/
def truth (value : Value) : Emit Value :=
  match value.ty with
  | .int 1 => pure value
  | .int bits => result .boolean (.icmp · .ne value (.int 0 bits))
  | .real => result .boolean (.fcmp · .one value (.real .zero))
  | found => fail (.typeMismatch .boolean found)

/-- Converts a value to another type. -/
def coerce (value : Value) (into : Ty) : Emit Value :=
  if value.ty = into then pure value
  else match value.ty, into with
    | _, .int 1 => truth value
    | .int a, .int b => result into (.cast · (if a < b then .sext else .trunc) value into)
    | .int _, .real => result into (.cast · .sitofp value into)
    | .real, .int _ => result into (.cast · .fptosi value into)
    | found, _ => fail (.typeMismatch into found)

/-- Brings two operands to their common type. -/
def unify (lhs rhs : Value) : Emit (Value × Value) :=
  match Ty.common lhs.ty rhs.ty with
  | none => fail (.typeMismatch lhs.ty rhs.ty)
  | some ty => do
    let lhs ← coerce lhs ty
    let rhs ← coerce rhs ty
    pure (lhs, rhs)

/-- The operation that an operator stands for, on values of a type. -/
def opFor? : Ty → BinaryOp → Option BinOp
  | .int _, .add => some .add
  | .int _, .sub => some .sub
  | .int _, .mul => some .mul
  | .int _, .divide | .int _, .div => some .sdiv
  | .int _, .mod => some .srem
  | .int _, .and => some .and
  | .int _, .or => some .or
  | .real, .add => some .fadd
  | .real, .sub => some .fsub
  | .real, .mul => some .fmul
  | .real, .divide => some .fdiv
  | _, _ => none

/-- An operation whose result has the type of its operands. -/
def binary (op : BinOp) (lhs rhs : Value) : Emit Value :=
  result lhs.ty (.binary · op lhs rhs)

/-- An arithmetic or logical operator. -/
def arithmetic (op : BinaryOp) (lhs rhs : Value) : Emit Value := do
  let (lhs, rhs) ← unify lhs rhs
  match opFor? lhs.ty op with
  | some op => binary op lhs rhs
  | none => fail (.unsupportedOperator op.symbol lhs.ty)

/-- The comparison of integers that an operator stands for. -/
def intPredicate : RelationOp → IntPredicate
  | .equal => .eq
  | .notEqual => .ne
  | .less => .slt
  | .lessOrEqual => .sle
  | .greater => .sgt
  | .greaterOrEqual => .sge

/-- The comparison of doubles that an operator stands for. -/
def realPredicate : RelationOp → RealPredicate
  | .equal => .oeq
  | .notEqual => .one
  | .less => .olt
  | .lessOrEqual => .ole
  | .greater => .ogt
  | .greaterOrEqual => .oge

/-- A comparison, which is always BOOLEAN. -/
def compare (op : RelationOp) (lhs rhs : Value) : Emit Value := do
  let (lhs, rhs) ← unify lhs rhs
  match lhs.ty with
  | .int _ => result .boolean (.icmp · (intPredicate op) lhs rhs)
  | .real => result .boolean (.fcmp · (realPredicate op) lhs rhs)
  | ty => fail (.unsupportedOperator op.symbol ty)

/-- The negation of a truth value. -/
def not (value : Value) : Emit Value := do
  let value ← truth value
  binary .xor value (.boolean true)

/-- The opposite of a number. -/
def negate (value : Value) : Emit Value :=
  match value.ty with
  | .int bits => result (.int bits) (.binary · .sub (.int 0 bits) value)
  | .real => result .real (.fneg · value)
  | ty => fail (.unsupportedOperator "-" ty)

/-- The value stored at an address. -/
def load (ty : Ty) (address : Value) : Emit Value :=
  result ty (.load · ty address)

/-- A literal. -/
def literal : Literal → Emit Value
  | .integer value => pure (.integer value)
  | .real value => pure (.real value)
  | .boolean value => pure (.boolean value)
  | .string value => string value
  | .nil => pure .null

end Oberon.Emit
