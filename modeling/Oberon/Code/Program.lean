import Oberon.Code.Instr

/-!
# Functions and programs

A function is a list of blocks, entered at the first one, or only a declaration. A program
holds globals, string constants and functions; a name means the first entry that bears it.
-/

namespace Oberon.Code

/-- The function that prints by a format. -/
def printfName : String := "printf"

/-- The function that reads by a format. -/
def scanfName : String := "scanf"

/-- The function that prints a line. -/
def putsName : String := "puts"

/-- The function at which a program starts. -/
def entryName : String := "main"

/-- Instructions in a row, and the terminator that ends them once it is known. -/
structure Block where
  name : String
  instrs : List Instr := []
  terminator : Option Terminator := none
  deriving DecidableEq

/-- What a function consists of. -/
inductive Body where
  /-- Declared only: the machine provides it, or nobody does. -/
  | external
  | blocks (blocks : Array Block)
  deriving DecidableEq

/-- A function. -/
structure Function where
  name : String
  parameters : List Ty
  result : Ty
  variadic : Bool := false
  body : Body
  /-- The procedure it was generated from. -/
  origin : Option String := none
  deriving DecidableEq

namespace Function

/-- A declaration without a body. -/
def external (name : String) (parameters : List Ty) (result : Ty) (variadic : Bool) :
    Function :=
  { name, parameters, result, variadic, body := .external }

/-- Whether the function is only declared. -/
def isExternal (f : Function) : Bool :=
  match f.body with
  | .external => true
  | .blocks _ => false

/-- The blocks of the function, none if it is only declared. -/
def blocks (f : Function) : Array Block :=
  match f.body with
  | .external => #[]
  | .blocks blocks => blocks

/-- The position of the first block with a name. -/
def labelOf? (f : Function) (name : String) : Option Nat :=
  f.blocks.toList.findIdx? (·.name == name)

/-- The blocks that may run right after block `label`. -/
def successors (f : Function) (label : Nat) : List Nat :=
  ((f.blocks[label]?.bind (·.terminator)).map (·.successors)).getD []

end Function

/-- A global variable. -/
structure Global where
  name : String
  ty : Ty
  deriving DecidableEq

/-- A string constant, without the zero byte that ends it in memory. -/
structure StringConstant where
  name : String
  bytes : List UInt8
  deriving DecidableEq

/-- A program. -/
structure Program where
  name : String
  /-- The platform the program is for. -/
  target : String
  globals : List Global := []
  strings : List StringConstant := []
  functions : List Function := []
  deriving DecidableEq

namespace Program

/-- The first function with a name. -/
def function? (p : Program) (name : String) : Option Function :=
  p.functions.find? (·.name == name)

/-- The first global with a name. -/
def global? (p : Program) (name : String) : Option Global :=
  p.globals.find? (·.name == name)

/-- The first string constant with a name. -/
def string? (p : Program) (name : String) : Option StringConstant :=
  p.strings.find? (·.name == name)

/-- The list with `f` in place of the first function of the same name, or at the end. -/
def insertFunction (f : Function) : List Function → List Function
  | [] => [f]
  | g :: rest => if g.name == f.name then f :: rest else g :: insertFunction f rest

/-- Adds a function; one of the same name gives up its place. -/
def define (p : Program) (f : Function) : Program :=
  { p with functions := insertFunction f p.functions }

/-- Whether some instruction copies a block of bytes. -/
def usesCopy (p : Program) : Bool :=
  p.functions.any fun f => f.blocks.any fun b => b.instrs.any Instr.isCopy

end Program
end Oberon.Code
