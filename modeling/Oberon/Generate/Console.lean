import Oberon.Code.Program
import Oberon.Generate.Expression

/-!
# WRITE, WRITELN and READ

Each value is written by one call of the printing function, with a format that its type
decides; WRITELN ends the line with the last one.
-/

namespace Oberon

open Code

namespace Emit

/-- Calls a function that the machine provides; its result is not used. -/
def primitive (name : String) (arguments : List Value) : Emit Unit :=
  push (.call none name .status arguments)

/-- A value as the printing function takes it, and the format for it. -/
def printable (value : Value) : Emit (String × Value) :=
  match value.ty with
  | .int 64 => pure ("%lld", value)
  | .int _ => do
    let value ← coerce value .integer
    pure ("%lld", value)
  | .real => pure ("%lf", value)
  | .ptr => pure ("%s", value)
  | .void | .array .. => fail .arrayValue

/-- Prints a value, and what `ending` says after it. -/
def print (value : Value) (ending : String) : Emit Unit := do
  let (format, value) ← printable value
  let format ← string (format ++ ending)
  primitive printfName [format, value]

/-- The format by which a variable is read. -/
def readFormat? : Ty → Option String
  | .int 64 => some "%lld"
  | .real => some "%lf"
  | _ => none

end Emit

/-- Prints values in a row, and what `ending` says after the last one. -/
def emitPrints (env : Environment) (ending : String) : List Expr → Emit Unit
  | [] => pure ()
  | [e] => do
    let value ← e.emit env
    Emit.print value ending
  | e :: rest => do
    let value ← e.emit env
    Emit.print value ""
    emitPrints env ending rest

/-- WRITE. -/
def emitWrite (env : Environment) (arguments : List Expr) : Emit Unit :=
  emitPrints env "" arguments

/-- WRITELN. Without arguments it prints an empty line. -/
def emitWriteln (env : Environment) (arguments : List Expr) : Emit Unit :=
  match arguments with
  | [] => do
    let empty ← Emit.string ""
    Emit.primitive putsName [empty]
  | _ => emitPrints env "\n" arguments

/-- READ takes one variable without selectors, INTEGER or REAL. -/
def emitRead (env : Environment) : List Expr → Emit Unit
  | [.designator name []] => do
    let (place, ty) ← Emit.address env name 0 (pure [])
    match Emit.readFormat? ty with
    | some format => do
      let format ← Emit.string format
      Emit.primitive scanfName [format, place]
    | none => Emit.fail .malformedRead
  | _ => Emit.fail .malformedRead

end Oberon
