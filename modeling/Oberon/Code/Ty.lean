/-!
# Types of the generated code

Oberon's types become integers of some width, doubles, pointers and nested arrays. An array
of several dimensions is an array of arrays, so `ARRAY 2, 3` and `ARRAY 2 OF ARRAY 3` are one
type.
-/

namespace Oberon.Code

/-- A type of the generated code. -/
inductive Ty where
  | void
  /-- A signed integer of the given width in bits. -/
  | int (bits : Nat)
  /-- A double-precision number. -/
  | real
  /-- An address. -/
  | ptr
  | array (length : Nat) (element : Ty)
  deriving DecidableEq

namespace Ty

/-- INTEGER. -/
abbrev integer : Ty := .int 64

/-- BOOLEAN. -/
abbrev boolean : Ty := .int 1

/-- STRING. -/
abbrev string : Ty := .ptr

/-- The exit status of a program. -/
abbrev status : Ty := .int 32

/-- How a type is written. -/
def text : Ty → String
  | .void => "void"
  | .int bits => s!"i{bits}"
  | .real => "double"
  | .ptr => "ptr"
  | .array length element => "[" ++ toString length ++ " x " ++ element.text ++ "]"

/-- The array with the given dimensions, the outermost first. -/
def arrayOf (dimensions : List Nat) (element : Ty) : Ty :=
  dimensions.foldr .array element

/-- The bytes of an integer: one for each eight bits, the last of which may be only partly used.
The sum has 32 bits, so that a width among the seven greatest numbers of 32 bits takes no byte. -/
def bytesOf (bits : Nat) : Nat :=
  (bits + 7) % UInt32.size / 8

/-- The bytes a value takes, if their number has at most 64 bits. -/
def size? : Ty → Option Nat
  | .void => some 0
  | .int bits => some (bytesOf bits)
  | .real | .ptr => some 8
  | .array length element =>
    element.size?.bind fun each =>
      if length * each < UInt64.size then some (length * each) else none

/-- Whether the type is an array. -/
def isArray : Ty → Bool
  | .array .. => true
  | _ => false

/-- Whether the type is an integer of some width. -/
def isInteger : Ty → Bool
  | .int _ => true
  | _ => false

/-- Whether the type is BOOLEAN. -/
def isBoolean (ty : Ty) : Bool :=
  ty = boolean

/-- The dimensions of an array, the outermost first; none for any other type. -/
def dimensions : Ty → List Nat
  | .array length element => length :: element.dimensions
  | _ => []

/-- What is left after indexing `count` times, if the type has that many dimensions. -/
def strip : Ty → Nat → Option Ty
  | ty, 0 => some ty
  | .array _ element, count + 1 => element.strip count
  | _, _ + 1 => none

/-- The type in which two operands meet: their own if they share a scalar type, REAL if one
is REAL and the other an integer, the wider of two integers. -/
def common (lhs rhs : Ty) : Option Ty :=
  if lhs = rhs && !lhs.isArray && lhs != .void then some lhs
  else match lhs, rhs with
    | .real, .int _ | .int _, .real => some .real
    | .int a, .int b => some (.int (max a b))
    | _, _ => none

end Ty
end Oberon.Code
