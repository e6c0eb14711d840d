/-!
# Floating-point numbers

A REAL is an IEEE 754 double, kept as its 64 bits. Moving a number around never changes it,
equality is equality of bits, and arithmetic goes through the machine's own `Float`.
-/

namespace Oberon

/-- A double-precision number, given by its bits. -/
structure Double where
  bits : UInt64
  deriving DecidableEq

namespace Double

/-- The bit that holds the sign. -/
def signBit : UInt64 := 0x8000000000000000

/-- The bit that tells a quiet NaN from a signalling one. -/
def quietBit : UInt64 := 0x0008000000000000

/-- Positive zero. -/
def zero : Double := ⟨0⟩

/-- The bits of positive infinity. Magnitudes above it are NaNs. -/
def infinityBits : UInt64 := 0x7FF0000000000000

/-- What an invalid operation yields: a quiet NaN with the sign bit set. -/
def invalid : Double := ⟨0xFFF8000000000000⟩

/-- The number without its sign. -/
def abs (x : Double) : Double := ⟨x.bits &&& ~~~signBit⟩

/-- The number with its sign flipped, zeros and NaNs included. -/
def neg (x : Double) : Double := ⟨x.bits ^^^ signBit⟩

/-- Whether the sign bit is set. -/
def isNegative (x : Double) : Bool := x.bits &&& signBit != 0

/-- Whether the number is a NaN. -/
def isNaN (x : Double) : Bool := infinityBits < x.abs.bits

/-- The number as the machine computes with it. -/
def toFloat (x : Double) : Float := Float.ofBits x.bits

/-- The number that the machine computed. -/
def ofFloat (x : Float) : Double := ⟨x.toBits⟩

/-- Carries out a binary operation. A NaN operand is handed on, the left one first; an
operation that makes a NaN of two numbers was invalid. -/
def combine (op : Float → Float → Float) (x y : Double) : Double :=
  if x.isNaN then ⟨x.bits ||| quietBit⟩
  else if y.isNaN then ⟨y.bits ||| quietBit⟩
  else
    let result := ofFloat (op x.toFloat y.toFloat)
    if result.isNaN then invalid else result

/-- The sum. -/
def add (x y : Double) : Double := combine (· + ·) x y

/-- The difference. -/
def sub (x y : Double) : Double := combine (· - ·) x y

/-- The product. -/
def mul (x y : Double) : Double := combine (· * ·) x y

/-- The quotient. -/
def div (x y : Double) : Double := combine (· / ·) x y

/-- The order of two numbers; a NaN has none, and the two zeros are equal. -/
def compare? (x y : Double) : Option Ordering :=
  if x.isNaN || y.isNaN then none
  else if x.toFloat < y.toFloat then some .lt
  else if y.toFloat < x.toFloat then some .gt
  else some .eq

/-- The double nearest to an integer, ties to even. -/
def ofInt64 (v : Int64) : Double := ofFloat v.toFloat

/-- The integer part, clamped to the 64-bit range; zero for a NaN. -/
def toInt64 (x : Double) : Int64 := x.toFloat.toInt64

end Double
end Oberon
