import Oberon.Code.Ty
import Oberon.Number.Double
import Oberon.Text.Hex

/-!
# Operands

What an instruction works on: constants, temporaries, parameters and the addresses of
globals and strings. Every operand knows its type.
-/

namespace Oberon.Code

/-- An operand. -/
inductive Value where
  | int (value : Int64) (bits : Nat)
  | real (value : Double)
  | null
  /-- The result of an earlier instruction. -/
  | temp (index : Nat) (ty : Ty)
  /-- A parameter, by position. -/
  | param (index : Nat) (ty : Ty)
  /-- The address of a global variable. -/
  | global (name : String)
  /-- The address of a string constant. -/
  | string (name : String)
  deriving DecidableEq

namespace Value

/-- An INTEGER constant. -/
abbrev integer (value : Int64) : Value := .int value 64

/-- A BOOLEAN constant. -/
abbrev boolean (value : Bool) : Value := .int (if value then 1 else 0) 1

/-- The zero of a scalar type. -/
def zero? : Ty → Option Value
  | .int bits => some (.int 0 bits)
  | .real => some (.real .zero)
  | .ptr => some .null
  | .void | .array .. => none

/-- The type of an operand. -/
def ty : Value → Ty
  | .int _ bits => .int bits
  | .real _ => .real
  | .null | .global _ | .string _ => .ptr
  | .temp _ ty | .param _ ty => ty

/-- How a temporary is written. -/
def tempText (index : Nat) : String :=
  "%t" ++ toString index

/-- How an operand is written. A one-bit integer is `true` or `false`, and a double is its
bits. -/
def text : Value → String
  | .int value 1 => if value = 0 then "false" else "true"
  | .int value _ => toString value.toInt
  | .real value => "0x" ++ String.ofList (Text.hexDigits 16 value.bits.toNat)
  | .null => "null"
  | .temp index _ => tempText index
  | .param index _ => "%arg" ++ toString index
  | .global name | .string name => "@" ++ name

/-- An operand with its type before it. -/
def typedText (value : Value) : String :=
  value.ty.text ++ " " ++ value.text

end Value
end Oberon.Code
