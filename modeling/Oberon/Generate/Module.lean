import Oberon.Generate.Statement
import Oberon.Report.Located
import Oberon.Scope.Folding
import Oberon.Scope.TypeTable
import Oberon.Target.Platform

/-!
# Procedures and modules

In each declaration section come constants, types, variables and procedures, in this order.
Variables of the module are globals, those of a procedure are cells of its call. A procedure
is known in the section that declares it before its own body is generated, so it may call
itself; the functions of a program are named by the path of the procedure. The body of the
module comes last, as the function at which the program starts.

Errors carry the unit, module or procedure, in which they arose.
-/

namespace Oberon

open Code

/-- The state of a compilation. -/
structure Session where
  globals : List Global := []
  functions : List Function := []
  env : Environment := {}
  types : TypeTable := {}
  stock : Stock := {}
  /-- The body that is being generated. -/
  draft : Draft := {}

/-- Compiles a part of a unit, or fails. -/
abbrev Compile := StateT Session (Except CompileError)

/-- Compiles whole units, or fails in one of them. -/
abbrev CompileUnit := StateT Session (Except (Located CompileError))

namespace Compile

/-- Emits code into the current body. -/
def emit {α : Type} (action : Emit α) : Compile α := fun s =>
  match action { stock := s.stock, draft := s.draft } with
  | .ok (value, emission) =>
    .ok (value, { s with stock := emission.stock, draft := emission.draft })
  | .error e => .error e

/-- Runs as a part of a unit, at which its errors are located. -/
def within {α : Type} (unit : String) (action : Compile α) : CompileUnit α := fun s =>
  match action s with
  | .ok result => .ok result
  | .error e => .error { value := e, unit }

/-- Declares a name in the innermost frame. -/
def declare (name : String) (named : Named) : Compile Unit := do
  let s ← get
  let env ← s.env.declare name named
  set { s with env }

/-- Opens a frame of names and a scope of types. -/
def enterScope : Compile Unit :=
  modify fun s => { s with env := s.env.push, types := s.types.push }

/-- Closes the innermost frame of names and scope of types. -/
def leaveScope : Compile Unit :=
  modify fun s => { s with env := s.env.pop, types := s.types.pop }

/-- Resolves a type, whose size has to fit in 64 bits. -/
def resolve (type : TypeExpr) : Compile Ty := do
  let s ← get
  let resolution := s.types.resolve (Expr.dimension s.env) type
  set { s with types := resolution.table }
  match resolution.result with
  | .error e => throw e.toCompileError
  | .ok ty => if ty.size?.isSome then pure ty else throw (.oversized ty)

/-- Declares constants, each of which may use those before it. -/
def constants : List (String × Expr) → Compile Unit
  | [] => pure ()
  | (name, value) :: rest => do
    let s ← get
    match value.fold s.env with
    | none => throw (.notConstant name)
    | some value => do
      declare name (.constant value)
      constants rest

/-- Declares types, which may use each other in any order. -/
def types (declarations : List (String × TypeExpr)) : Compile Unit :=
  modify fun s =>
    { s with types := declarations.foldl (fun t (name, type) => t.declare name type) s.types }

/-- Makes a global of the module, and the variable for it. -/
def globalVariable (moduleName name : String) (ty : Ty) : Compile Variable := do
  let symbol := moduleName ++ "." ++ name
  modify fun s => { s with globals := s.globals ++ [⟨symbol, ty⟩] }
  let s ← get
  pure { name, storage := .global symbol, ty, isGlobal := true, level := s.env.level }

/-- Makes a cell of the current call, and the variable for it. -/
def localVariable (name : String) (ty : Ty) : Compile Variable := do
  let storage ← emit (Emit.cell ty)
  let s ← get
  pure { name, storage, ty, level := s.env.level }

/-- Declares variables of one type, made by `make`. -/
def varsOf (make : String → Ty → Compile Variable) (ty : Ty) :
    List String → Compile Unit
  | [] => pure ()
  | name :: rest => do
    let cell ← make name ty
    declare name (.var cell)
    varsOf make ty rest

/-- Declares variables, made by `make`. -/
def vars (make : String → Ty → Compile Variable) :
    List (List String × TypeExpr) → Compile Unit
  | [] => pure ()
  | (names, type) :: rest => do
    let ty ← resolve type
    varsOf make ty names
    vars make rest

/-- The result type of a procedure, which cannot be an array. -/
def resultType : Option TypeExpr → Compile Ty
  | none => pure .void
  | some type => do
    let ty ← resolve type
    if ty.isArray then
      throw (.typeMismatch ((ty.strip ty.dimensions.length).getD .void) ty)
    else pure ty

/-- The parameters of a procedure. Arrays are always passed by reference. -/
def parameters : List FormalSection → Compile (List Parameter)
  | [] => pure []
  | formal :: rest => do
    let ty ← resolve formal.type
    let byReference := formal.byReference || ty.isArray
    let others ← parameters rest
    pure (formal.names.map (fun name => { name, ty, byReference }) ++ others)

/-- What calls have to know of a procedure. -/
def signature (symbol : String) (formals : List FormalSection) (result : Option TypeExpr) :
    Compile Signature := do
  let result ← resultType result
  let parameters ← parameters formals
  pure { symbol, result, parameters }

/-- Declares a procedure in the innermost frame. -/
def declareProcedure (name : String) (signature : Signature) : Compile Unit := do
  let s ← get
  let env ← s.env.declareProcedure name signature
  set { s with env }

/-- Where a parameter is stored. One passed by value gets a cell with the value that came in. -/
def storage (index : Nat) (parameter : Parameter) : Emit Value :=
  if parameter.byReference then pure (.param index .ptr)
  else do
    let slot ← Emit.cell parameter.ty
    Emit.push (.store (.param index parameter.ty) slot)
    pure slot

/-- Declares parameters inside of their procedure; `index` is the position of the first one. -/
def bindParameters : Nat → List Parameter → Compile Unit
  | _, [] => pure ()
  | index, parameter :: rest => do
    let storage ← emit (storage index parameter)
    let s ← get
    declare parameter.name (.var
      { name := parameter.name, storage, ty := parameter.ty,
        byReference := parameter.byReference, level := s.env.level })
    bindParameters (index + 1) rest

/-- Emits statements into the current body. -/
def statements (result : Ty) (body : List Statement) : Compile Unit := do
  let s ← get
  emit (emitStatements { env := s.env, result } none body)

/-- Starts a body, and gives the name of its first block and the body it interrupts. -/
def startBody : Compile (String × Draft) := do
  let entry ← emit (Emit.freshName "entry")
  let s ← get
  set { s with draft := {} }
  pure (entry, s.draft)

/-- Ends the current body, which becomes a function, and goes back to the one it interrupted.
Open blocks return the zero of the result type, or nothing. -/
def finishBody (function : Builder) (outer : Draft) : Compile Unit :=
  modify fun s =>
    let built := (function.run s.draft.script).closeAll (.ret (Value.zero? function.result))
    { s with
      functions := Program.insertFunction built.finish s.functions
      draft := outer }

/-- Makes a procedure known in the section that declares it, starts its body, and declares what
stands in its own section but the nested procedures. -/
def openProcedure (name symbol : String) (formals : List FormalSection)
    (result : Option TypeExpr) (constantSection : List (String × Expr))
    (typeSection : List (String × TypeExpr)) (varSection : List (List String × TypeExpr)) :
    Compile (Signature × String × Draft) := do
  let signature ← signature symbol formals result
  declareProcedure name signature
  let (entry, outer) ← startBody
  enterScope
  bindParameters 0 signature.parameters
  constants constantSection
  types typeSection
  vars localVariable varSection
  pure (signature, entry, outer)

/-- Generates the body of a procedure, which becomes a function, and leaves its section. -/
def closeProcedure (signature : Signature) (entry : String) (outer : Draft)
    (body : List Statement) : Compile Unit := do
  statements signature.result body
  finishBody
    (.start signature.symbol signature.parameterTypes signature.result entry
      (some signature.symbol)) outer
  leaveScope

end Compile

mutual

/-- Compiles a procedure of a unit. -/
def Procedure.compile (unit : String) : Procedure → CompileUnit Unit
  | .mk name formals result ⟨constants, types, vars, procedures⟩ body => do
    let symbol := unit ++ "." ++ name
    let (signature, entry, outer) ← Compile.within symbol
      (Compile.openProcedure name symbol formals result constants types vars)
    compileProcedures symbol procedures
    Compile.within symbol (Compile.closeProcedure signature entry outer body)

/-- Compiles the procedures of a unit, in order. -/
def compileProcedures (unit : String) : List Procedure → CompileUnit Unit
  | [] => pure ()
  | p :: rest => do
    p.compile unit
    compileProcedures unit rest

end

namespace Module

/-- The functions that the machine provides. -/
def primitives : List Function :=
  [.external printfName [.ptr] .status true,
    .external scanfName [.ptr] .status true,
    .external putsName [.ptr] .status false]

/-- Compiles the declarations of a module. -/
def compileDeclarations (m : Module) : CompileUnit Unit := do
  Compile.within m.name do
    Compile.enterScope
    Compile.constants m.declarations.constants
    Compile.types m.declarations.types
    Compile.vars (Compile.globalVariable m.name) m.declarations.vars
  compileProcedures m.name m.declarations.procedures

/-- Compiles the body of a module to the function at which the program starts. -/
def compileEntry (m : Module) : Compile Unit := do
  let (entry, outer) ← Compile.startBody
  Compile.statements .status (m.body.getD [])
  Compile.finishBody (.start entryName [] .status entry none) outer

/-- Compiles a module for a platform. -/
def compile (m : Module) (platform : Platform) : Except (Located CompileError) Program := do
  let (_, s) ← (do m.compileDeclarations; Compile.within m.name m.compileEntry : CompileUnit Unit)
    { functions := primitives }
  pure
    { name := m.name, target := platform.triple, globals := s.globals,
      strings := s.stock.strings, functions := s.functions }

end Module
end Oberon
