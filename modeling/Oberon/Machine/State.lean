import Std.Data.TreeMap
import Oberon.Machine.Arithmetic
import Oberon.Machine.Console

/-!
# States of the machine

A call under way is a frame: the function, what came in, the temporaries defined so far, and
the place in the code. The machine runs one frame; the others wait for their callees.
-/

namespace Oberon.Machine

open Code

/-- The number of calls that can be under way at once. -/
def maxDepth : Nat := 1024

/-- A program in memory. -/
structure Image where
  program : Program
  /-- The addresses of strings and globals; the first entry of a name counts. -/
  symbols : List (String × Nat)

/-- A call under way. -/
structure Frame where
  function : String
  blocks : Array Block
  arguments : List Scalar
  temps : Std.TreeMap Nat Scalar := {}
  /-- The size that memory had at the call. -/
  base : Nat
  /-- The temporary of the caller that takes the result. -/
  out : Option Nat
  /-- The block being run. -/
  block : Block
  /-- The instructions of the block that are still to run. -/
  rest : List Instr

/-- The state of a running machine. -/
structure State where
  world : World
  frame : Frame
  /-- The calls that wait, the innermost first. -/
  callers : List Frame

namespace Frame

/-- The frame with a temporary set. -/
def set (f : Frame) (out : Nat) (value : Scalar) : Frame :=
  { f with temps := f.temps.insert out value }

/-- The frame with a temporary set, if there is one to set. -/
def set? (f : Frame) (out : Option Nat) (value : Scalar) : Frame :=
  match out with
  | some out => f.set out value
  | none => f

/-- The fault of a jump to a block that does not exist. -/
def missingBlock (function : String) : Fault :=
  .malformed s!"branch to missing block in `{function}`"

/-- The frame at the start of a block. -/
def jump (f : Frame) (label : Nat) : Except Fault Frame :=
  match f.blocks[label]? with
  | some block => .ok { f with block, rest := block.instrs }
  | none => .error (missingBlock f.function)

/-- The frame at the start of a function. -/
def enter (function : String) (blocks : Array Block) (arguments : List Scalar) (base : Nat)
    (out : Option Nat) : Except Fault Frame :=
  match blocks[0]? with
  | some block =>
    .ok { function, blocks, arguments, base, out, block, rest := block.instrs }
  | none => .error (missingBlock function)

end Frame

namespace Image

/-- The value of an operand. -/
def value (image : Image) (f : Frame) : Value → Except Fault Scalar
  | .int value bits => .ok (.int (Word.wrap bits value))
  | .real value => .ok (.real value)
  | .null => .ok (.int 0)
  | .temp index _ =>
    match f.temps[index]? with
    | some value => .ok value
    | none => .error (.malformed s!"%t{index} used before definition")
  | .param index _ =>
    match f.arguments[index]? with
    | some value => .ok value
    | none => .error (.malformed s!"missing argument {index}")
  | .global name | .string name =>
    match image.symbols.lookup name with
    | some address => .ok (.ofAddress address)
    | none => .error (.malformed s!"undefined symbol @{name}")

/-- The value of an operand that has to be an integer. -/
def int (image : Image) (f : Frame) (operand : Value) : Except Fault Int64 :=
  match image.value f operand with
  | .ok (.int value) => .ok value
  | .ok (.real _) => .error (.malformed "real used as integer")
  | .error e => .error e

/-- The value of an operand that has to be a double. -/
def real (image : Image) (f : Frame) (operand : Value) : Except Fault Double :=
  match image.value f operand with
  | .ok (.real value) => .ok value
  | .ok (.int _) => .error (.malformed "integer used as real")
  | .error e => .error e

/-- The values of operands in a row. -/
def values (image : Image) (f : Frame) : List Value → Except Fault (List Scalar)
  | [] => .ok []
  | operand :: rest => do
    let first ← image.value f operand
    let others ← image.values f rest
    pure (first :: others)

/-- The values of operands in a row that have to be integers. -/
def ints (image : Image) (f : Frame) : List Value → Except Fault (List Int64)
  | [] => .ok []
  | operand :: rest => do
    let first ← image.int f operand
    let others ← image.ints f rest
    pure (first :: others)

end Image
end Oberon.Machine
