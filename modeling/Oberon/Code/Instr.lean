import Oberon.Code.Value

/-!
# Instructions

Straight-line instructions, and the terminators that end a block.
-/

namespace Oberon.Code

/-- Operations on two operands of one type. -/
inductive BinOp where
  | add | sub | mul | sdiv | srem | and | or | xor | fadd | fsub | fmul | fdiv
  deriving DecidableEq

/-- Comparisons of integers. -/
inductive IntPredicate where
  | eq | ne | slt | sle | sgt | sge
  deriving DecidableEq

/-- Comparisons of doubles, all of them false on a NaN. -/
inductive RealPredicate where
  | oeq | one | olt | ole | ogt | oge
  deriving DecidableEq

/-- Conversions between scalar types. -/
inductive CastOp where
  /-- Widens an integer. -/
  | sext
  /-- Narrows an integer. -/
  | trunc
  /-- Integer to double. -/
  | sitofp
  /-- Double to integer, toward zero. -/
  | fptosi
  deriving DecidableEq

/-- An instruction; `out` is the temporary that takes its result. -/
inductive Instr where
  /-- Reserves a cell for the time of the call. -/
  | alloca (out : Nat) (ty : Ty)
  | load (out : Nat) (ty : Ty) (address : Value)
  | store (value address : Value)
  | binary (out : Nat) (op : BinOp) (lhs rhs : Value)
  | fneg (out : Nat) (value : Value)
  | icmp (out : Nat) (predicate : IntPredicate) (lhs rhs : Value)
  | fcmp (out : Nat) (predicate : RealPredicate) (lhs rhs : Value)
  | cast (out : Nat) (op : CastOp) (value : Value) (into : Ty)
  /-- The address of an element. The first index steps over whole values of type `base`, each
  further one goes into a dimension. -/
  | element (out : Nat) (base : Ty) (address : Value) (indices : List Value)
  | call (out : Option Nat) (target : String) (result : Ty) (arguments : List Value)
  /-- Copies a block of bytes; the two may overlap. -/
  | copy (destination source : Value) (bytes : Nat)
  deriving DecidableEq

/-- The temporary that an instruction defines. -/
def Instr.output : Instr → Option Nat
  | .alloca out .. | .load out .. | .binary out .. | .fneg out .. | .icmp out .. | .fcmp out ..
  | .cast out .. | .element out .. => some out
  | .call out .. => out
  | .store .. | .copy .. => none

/-- Whether an instruction reserves a cell. -/
def Instr.isAlloca : Instr → Bool
  | .alloca .. => true
  | _ => false

/-- Whether an instruction copies a block of bytes. -/
def Instr.isCopy : Instr → Bool
  | .copy .. => true
  | _ => false

/-- The end of a block. Blocks are named by their position in the function. -/
inductive Terminator where
  | jump (target : Nat)
  | branch (condition : Value) (onTrue onFalse : Nat)
  | ret (value : Option Value)
  deriving DecidableEq

/-- The blocks that may run next. -/
def Terminator.successors : Terminator → List Nat
  | .jump target => [target]
  | .branch _ onTrue onFalse => [onTrue, onFalse]
  | .ret _ => []

end Oberon.Code
