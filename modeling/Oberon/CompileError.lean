import Oberon.Code.Ty

/-!
# Errors of code generation

Why a module cannot be compiled. The first error ends the compilation.
-/

namespace Oberon

/-- Why a type cannot be resolved. -/
inductive TypeError where
  | undefined (name : String)
  /-- The type is defined in terms of itself. -/
  | cyclic (name : String)
  deriving DecidableEq

/-- The report of a type error. -/
def TypeError.message : TypeError → String
  | .undefined name => s!"Type `{name}` is undefined"
  | .cyclic name => s!"Type `{name}` is defined in terms of itself"

/-- Why a module cannot be compiled. -/
inductive CompileError where
  /-- A name that means nothing of the kind needed, such as a variable or a procedure. -/
  | unresolved (kind name : String)
  | unsupportedOperator (op : String) (ty : Code.Ty)
  /-- An argument passed by reference is no variable; positions count from one. -/
  | malformedReference (procedure : String) (position : Nat)
  /-- BREAK or CONTINUE outside of a loop. -/
  | misplacedJump (keyword : String)
  | malformedRead
  | duplicateName (name : String)
  | typeMismatch (expected found : Code.Ty)
  | argumentCount (procedure : String) (expected found : Nat)
  /-- More indices than dimensions. -/
  | notAnArray (name : String)
  /-- A call that stands for a value and has none. -/
  | noValue (procedure : String)
  /-- A variable of an enclosing procedure. -/
  | uplevelAccess (name : String)
  | cyclicType (name : String)
  | notConstant (name : String)
  | notAssignable (name : String)
  | arrayValue
  /-- A type whose size exceeds 64 bits. -/
  | oversized (ty : Code.Ty)
  deriving DecidableEq

/-- The report of a compile error. -/
def CompileError.message : CompileError → String
  | .unresolved kind name => s!"Unresolved {kind} `{name}`"
  | .unsupportedOperator op ty =>
    "Operator `" ++ op ++ "` is not supported on values of type " ++ ty.text
  | .malformedReference procedure position =>
    s!"Argument {position} of `{procedure}` is passed by reference and must be a variable"
  | .misplacedJump keyword => s!"{keyword} outside of a loop"
  | .malformedRead => "READ expects a single INTEGER or REAL variable without selectors"
  | .duplicateName name => s!"`{name}` is declared more than once in the same scope"
  | .typeMismatch expected found =>
    "Type mismatch: expected " ++ expected.text ++ ", found " ++ found.text
  | .argumentCount procedure expected found =>
    s!"`{procedure}` expects {expected} arguments, but {found} were given"
  | .notAnArray name => s!"Too many indices for `{name}`"
  | .noValue procedure => s!"Procedure `{procedure}` does not return a value"
  | .uplevelAccess name => s!"`{name}` is local to an enclosing procedure"
  | .cyclicType name => s!"Type `{name}` is defined in terms of itself"
  | .notConstant name => s!"Value of constant `{name}` is not known at compile time"
  | .notAssignable name => s!"`{name}` cannot be assigned to"
  | .arrayValue => "An array cannot be used as a scalar value"
  | .oversized ty => "Type " ++ ty.text ++ " is too large to be stored"

/-- A type error, as an error of the module that uses the type. -/
def TypeError.toCompileError : TypeError → CompileError
  | .undefined name => .unresolved "type" name
  | .cyclic name => .cyclicType name

end Oberon
