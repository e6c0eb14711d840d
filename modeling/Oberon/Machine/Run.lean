import Oberon.Machine.Step
import Oberon.Text.Blank

/-!
# Runs

Memory starts with the strings, one right after the other, and then the globals, all zero.
The program starts at its entry function and may take a given number of steps.
-/

namespace Oberon.Machine

open Code

/-- The steps a run may take unless told otherwise. -/
def defaultFuel : Nat := 50000000

/-- What a run leaves behind. -/
structure Execution where
  status : Int32
  output : String
  deriving DecidableEq

/-- Puts strings into memory, each with a zero at its end. -/
def loadStrings : List StringConstant → Memory × List (String × Nat) →
    Memory × List (String × Nat)
  | [], loaded => loaded
  | s :: rest, (memory, symbols) =>
    let address := memory.size
    let memory := (memory.extend (address + s.bytes.length + 1)).setAll address s.bytes
    loadStrings rest (memory, (s.name, address) :: symbols)

/-- Puts globals into memory. -/
def loadGlobals : List Global → Memory × List (String × Nat) →
    Except Fault (Memory × List (String × Nat))
  | [], loaded => .ok loaded
  | g :: rest, (memory, symbols) => do
    let (address, memory) ← memory.allocate g.ty
    loadGlobals rest (memory, (g.name, address) :: symbols)

/-- A program in memory, and the memory. -/
def load (p : Program) : Except Fault (Image × Memory) := do
  let (memory, symbols) ← loadGlobals p.globals (loadStrings p.strings (.initial, []))
  pure ({ program := p, symbols }, memory)

/-- A machine about to run the entry function. -/
def start (p : Program) (world : World) : Except Fault Progress :=
  match p.function? entryName with
  | none => .error (.unknownFunction entryName)
  | some function =>
    match function.body with
    | .external => do
      let (result, world) ← primitive world function.name []
      pure (.halted (some result) world)
    | .blocks blocks => do
      let frame ← Frame.enter function.name blocks [] world.memory.size none
      pure (.running { world, frame, callers := [] })

/-- What a finished run leaves behind. The exit status is the low half of an integer result,
and zero for any other. -/
def Execution.ofResult (result : Option Scalar) (world : World) : Execution where
  status := match result with
    | some (.int value) => value.toInt32
    | _ => 0
  output := Text.decode world.output.data.toList

/-- Runs for at most `fuel` more steps of a budget. -/
def Image.run (image : Image) (budget : Nat) : Nat → State → Except Fault Execution
  | 0, _ => .error (.outOfFuel budget)
  | fuel + 1, s =>
    match image.step s with
    | .error e => .error e
    | .ok (.halted result world) => .ok (.ofResult result world)
    | .ok (.running s) => image.run budget fuel s

/-- Runs a program on an input, for at most `fuel` steps. -/
def run (p : Program) (input : String) (fuel : Nat) : Except Fault Execution := do
  let (image, memory) ← load p
  match ← start p { memory, input := Text.words input } with
  | .halted result world => pure (.ofResult result world)
  | .running s => image.run fuel fuel s

end Oberon.Machine
