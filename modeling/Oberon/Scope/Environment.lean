import Oberon.CompileError
import Oberon.Code.Value

/-!
# Names in scope

An environment is a stack of frames, the innermost first; each frame maps names to what they
mean. A lookup takes the innermost frame that has the name. Procedures live in the frames
too, and unlike variables and constants they may be declared again.
-/

namespace Oberon

/-- The value of a declared constant. -/
inductive Constant where
  | integer (value : Int64)
  | real (value : Double)
  | boolean (value : Bool)
  | string (value : String)
  deriving DecidableEq

/-- A variable and where it is stored. The storage is always an address: a cell of the
current call, a global, or the address that came in for a parameter. -/
structure Variable where
  name : String
  storage : Code.Value
  ty : Code.Ty
  /-- The storage lasts as long as the program. -/
  isGlobal : Bool := false
  /-- The storage belongs to the caller. -/
  byReference : Bool := false
  /-- The level of the frame that declares it. -/
  level : Nat
  deriving DecidableEq

/-- A parameter of a procedure. -/
structure Parameter where
  name : String
  ty : Code.Ty
  byReference : Bool
  deriving DecidableEq

/-- What a call has to know of a procedure. -/
structure Signature where
  /-- The name of the generated function. -/
  symbol : String
  result : Code.Ty
  parameters : List Parameter
  deriving DecidableEq

/-- The parameter types of the generated function; references become addresses. -/
def Signature.parameterTypes (s : Signature) : List Code.Ty :=
  s.parameters.map fun p => if p.byReference then .ptr else p.ty

/-- What a name means. -/
inductive Named where
  | var (cell : Variable)
  | constant (value : Constant)
  | procedure (signature : Signature)
  deriving DecidableEq

/-- Frames of names, the innermost first. -/
structure Environment where
  frames : List (List (String × Named)) := []

namespace Environment

/-- Opens a frame. -/
def push (env : Environment) : Environment :=
  ⟨[] :: env.frames⟩

/-- Closes the innermost frame, if there is one. -/
def pop (env : Environment) : Environment :=
  ⟨env.frames.tail⟩

/-- The number of frames around the innermost one. -/
def level (env : Environment) : Nat :=
  env.frames.length - 1

/-- What a name means, seen from the innermost frame. -/
def lookup (env : Environment) (name : String) : Option Named :=
  env.frames.findSome? (·.lookup name)

/-- The innermost frame; an environment without frames stands for one with an empty frame. -/
def innermost (env : Environment) : List (String × Named) :=
  env.frames.headD []

/-- Binds a name in the innermost frame, in front of what it meant there. -/
def bind (env : Environment) (name : String) (named : Named) : Environment :=
  ⟨((name, named) :: env.innermost) :: env.frames.tail⟩

/-- Binds a name that the innermost frame does not have. -/
def declare (env : Environment) (name : String) (named : Named) :
    Except CompileError Environment :=
  match env.innermost.lookup name with
  | some _ => .error (.duplicateName name)
  | none => .ok (env.bind name named)

/-- Binds a procedure in the innermost frame, where it may replace another procedure. -/
def declareProcedure (env : Environment) (name : String) (signature : Signature) :
    Except CompileError Environment :=
  match env.innermost.lookup name with
  | some (.var _) | some (.constant _) => .error (.duplicateName name)
  | _ => .ok (env.bind name (.procedure signature))

end Environment
end Oberon
