import Oberon.Text.Hex

/-!
# Faults

Why a run stops before its end.
-/

namespace Oberon.Machine

/-- Why a run stops before its end. -/
inductive Fault where
  | divisionByZero
  | indexOutOfRange (index : Int64)
  | badAddress (address : Nat)
  | unknownFunction (name : String)
  | outOfFuel (budget : Nat)
  | stackOverflow (limit : Nat)
  | outOfMemory (limit : Nat)
  /-- The program does something that has no meaning. -/
  | malformed (reason : String)
  /-- A value of that many bytes was to be read or written as one word, which has fewer. The
  machine itself breaks down, and whoever runs it gets no result. -/
  | crash (count : Nat)
  deriving DecidableEq

/-- The report of a fault. -/
def Fault.message : Fault → String
  | .divisionByZero => "Division by zero"
  | .indexOutOfRange index => "Array index " ++ toString index.toInt ++ " out of range"
  | .badAddress address => "Invalid memory access at address 0x" ++ Text.lowerHex address
  | .unknownFunction name => s!"Call to undefined function `{name}`"
  | .outOfFuel budget => s!"Execution did not finish within {budget} steps"
  | .stackOverflow limit => s!"Call depth exceeded {limit}"
  | .outOfMemory limit => s!"Memory limit of {limit} bytes exceeded"
  | .malformed reason => s!"Malformed IR: {reason}"
  | .crash count => s!"range end index {count} out of range for slice of length 8"

end Oberon.Machine
