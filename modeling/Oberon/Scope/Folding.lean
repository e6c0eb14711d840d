import Oberon.Number.Word
import Oberon.Scope.Environment
import Oberon.Syntax

/-!
# Constant expressions

The value of an expression at compile time, for constant declarations and array dimensions.
Arithmetic that leaves the 64-bit range has no value here, and neither has division by zero.
-/

namespace Oberon

namespace Constant

/-- A number as a double. -/
def toReal? : Constant → Option Double
  | .integer value => some (.ofInt64 value)
  | .real value => some value
  | _ => none

/-- The operators on integers. -/
def integerOp (op : BinaryOp) (lhs rhs : Int64) : Option Int64 :=
  match op with
  | .add => Word.add? lhs rhs
  | .sub => Word.sub? lhs rhs
  | .mul => Word.mul? lhs rhs
  | .divide | .div => Word.div? lhs rhs
  | .mod => Word.mod? lhs rhs
  | .and => some (lhs &&& rhs)
  | .or => some (lhs ||| rhs)

/-- The operators on doubles. -/
def realOp (op : BinaryOp) (lhs rhs : Double) : Option Double :=
  match op with
  | .add => some (lhs.add rhs)
  | .sub => some (lhs.sub rhs)
  | .mul => some (lhs.mul rhs)
  | .divide => some (lhs.div rhs)
  | _ => none

/-- The operators on truth values. -/
def booleanOp (op : BinaryOp) (lhs rhs : Bool) : Option Bool :=
  match op with
  | .and => some (lhs && rhs)
  | .or => some (lhs || rhs)
  | _ => none

/-- An operator on two constants. An integer beside a double counts as a double. -/
def binary (lhs : Constant) (op : BinaryOp) (rhs : Constant) : Option Constant :=
  match lhs, rhs with
  | .integer a, .integer b => (integerOp op a b).map .integer
  | .boolean a, .boolean b => (booleanOp op a b).map .boolean
  | lhs, rhs => do
    let a ← lhs.toReal?
    let b ← rhs.toReal?
    (realOp op a b).map .real

/-- Whether a comparison holds of two values in the given order. -/
def holds (op : RelationOp) (order : Ordering) : Bool :=
  match op with
  | .equal => order == .eq
  | .notEqual => order != .eq
  | .less => order == .lt
  | .lessOrEqual => order != .gt
  | .greater => order == .gt
  | .greaterOrEqual => order != .lt

/-- The order of two integers. -/
def compareIntegers (a b : Int64) : Ordering :=
  if a < b then .lt else if b < a then .gt else .eq

/-- A comparison of two constants. Truth values can only be equal or not; a comparison with a
NaN is false. -/
def relation (lhs : Constant) (op : RelationOp) (rhs : Constant) : Option Constant :=
  match lhs, rhs with
  | .integer a, .integer b => some (.boolean (holds op (compareIntegers a b)))
  | .boolean a, .boolean b =>
    match op with
    | .equal => some (.boolean (a == b))
    | .notEqual => some (.boolean (a != b))
    | _ => none
  | lhs, rhs => do
    let a ← lhs.toReal?
    let b ← rhs.toReal?
    some (.boolean (((a.compare? b).map (holds op)).getD false))

/-- The opposite of a number. -/
def negate : Constant → Option Constant
  | .integer value => (Word.neg? value).map .integer
  | .real value => some (.real value.neg)
  | _ => none

/-- The negation of a truth value; an integer is false if it is zero. -/
def not : Constant → Option Constant
  | .boolean value => some (.boolean !value)
  | .integer value => some (.boolean (value = 0))
  | _ => none

end Constant

/-- The value of a literal; NIL has none. -/
def Literal.constant? : Literal → Option Constant
  | .integer value => some (.integer value)
  | .real value => some (.real value)
  | .boolean value => some (.boolean value)
  | .string value => some (.string value)
  | .nil => none

/-- The value of an expression at compile time, if it has one. -/
def Expr.fold (env : Environment) : Expr → Option Constant
  | .literal value => value.constant?
  | .designator name [] =>
    match env.lookup name with
    | some (.constant value) => some value
    | _ => none
  | .designator _ (_ :: _) => none
  | .call .. => none
  | .not operand => (operand.fold env).bind Constant.not
  | .negate operand => (operand.fold env).bind Constant.negate
  | .binary lhs op rhs =>
    (lhs.fold env).bind fun a => (rhs.fold env).bind fun b => a.binary op b
  | .relation lhs op rhs =>
    (lhs.fold env).bind fun a => (rhs.fold env).bind fun b => a.relation op b

/-- The length that a dimension stands for: a constant from 1 to `2 ^ 32 - 1`, and 1 for
anything else. -/
def Expr.dimension (env : Environment) (e : Expr) : Nat :=
  match e.fold env with
  | some (.integer length) =>
    if 0 < length && length ≤ 4294967295 then length.toInt.toNat else 1
  | _ => 1

end Oberon
