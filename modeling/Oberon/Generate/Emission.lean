import Oberon.Code.Builder
import Oberon.CompileError
import Oberon.Text.Utf8

/-!
# Emitting code

Code for a body is emitted as a script of edits to a function under construction. Temporaries,
label names and string constants are drawn from one stock for the whole program, so that none
is used twice; blocks are counted for each body. The first error ends the emission.
-/

namespace Oberon

open Code

/-- What every body of a program draws from. -/
structure Stock where
  strings : List StringConstant := []
  /-- The next temporary. -/
  temps : Nat := 0
  /-- The number of the next label name. -/
  labels : Nat := 0

/-- The edits for one body. -/
structure Draft where
  /-- How many blocks the body has; the first one is there from the start. -/
  blocks : Nat := 1
  script : Array Edit := #[]

/-- The state of an emission. -/
structure Emission where
  stock : Stock
  draft : Draft

/-- Emits code, or fails. -/
abbrev Emit := StateT Emission (Except CompileError)

namespace Emit

/-- Fails. -/
def fail {α : Type} (e : CompileError) : Emit α :=
  fun _ => .error e

/-- Adds an edit to the script. -/
def edit (e : Edit) : Emit Unit :=
  modify fun s => { s with draft := { s.draft with script := s.draft.script.push e } }

/-- Adds an instruction to the current block. -/
def push (i : Instr) : Emit Unit :=
  edit (.push i)

/-- Moves on to another block. -/
def switchTo (label : Nat) : Emit Unit :=
  edit (.switchTo label)

/-- Ends the current block. -/
def terminate (t : Terminator) : Emit Unit :=
  edit (.terminate t)

/-- Ends the current block with a jump. -/
def jump (label : Nat) : Emit Unit :=
  terminate (.jump label)

/-- A temporary that was not used before. -/
def freshTemp : Emit Nat :=
  modifyGet fun s =>
    (s.stock.temps, { s with stock := { s.stock with temps := s.stock.temps + 1 } })

/-- A label name that was not used before. -/
def freshName (name : String) : Emit String :=
  modifyGet fun s =>
    (name ++ "." ++ toString s.stock.labels,
      { s with stock := { s.stock with labels := s.stock.labels + 1 } })

/-- Adds a block, and gives its label. -/
def newBlock (name : String) : Emit Nat := do
  let name ← freshName name
  edit (.addBlock name)
  modifyGet fun s =>
    (s.draft.blocks, { s with draft := { s.draft with blocks := s.draft.blocks + 1 } })

/-- Adds an instruction whose result is a fresh temporary of the given type. -/
def result (ty : Ty) (instr : Nat → Instr) : Emit Value := do
  let out ← freshTemp
  push (instr out)
  pure (.temp out ty)

/-- Reserves a cell for the time of the call, and gives its address. -/
def cell (ty : Ty) : Emit Value := do
  let out ← freshTemp
  edit (.pushEntry (.alloca out ty))
  pure (.temp out .ptr)

end Emit

namespace Stock

/-- The name of the constant with the given bytes, and the stock that has it. Equal bytes
share one constant. -/
def intern (s : Stock) (bytes : List UInt8) : String × Stock :=
  match s.strings.find? (·.bytes == bytes) with
  | some constant => (constant.name, s)
  | none =>
    let name := ".str." ++ toString s.strings.length
    (name, { s with strings := s.strings ++ [⟨name, bytes⟩] })

end Stock

/-- The address of a string constant. -/
def Emit.string (text : String) : Emit Value :=
  modifyGet fun s =>
    let (name, stock) := s.stock.intern (Text.utf8Bytes text)
    (.string name, { s with stock })

end Oberon
