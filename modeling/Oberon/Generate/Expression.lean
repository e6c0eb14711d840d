import Oberon.Generate.Operation
import Oberon.Scope.Environment

/-!
# Expressions

Operands are evaluated from left to right, all of them: AND and OR do not stop early. All
indices of a designator, over all its selectors, form one list, so `a[i, j]` and `a[i][j]`
emit the same code.
-/

namespace Oberon

open Code

namespace Emit

/-- The procedures that are part of the language. -/
def builtins : List String := ["WRITE", "WRITELN", "READ"]

/-- The value of a declared constant. -/
def constant : Constant → Emit Value
  | .integer value => pure (.integer value)
  | .real value => pure (.real value)
  | .boolean value => pure (.boolean value)
  | .string value => string value

/-- The variable that a name means; one that is neither global nor of the current frame
cannot be used. -/
def findVariable (env : Environment) (name : String) : Except CompileError Variable :=
  match env.lookup name with
  | some (.var cell) =>
    if cell.isGlobal || cell.level = env.level then .ok cell
    else .error (.uplevelAccess cell.name)
  | some (.constant _) => .error (.notAssignable name)
  | some (.procedure _) | none => .error (.unresolved "variable" name)

/-- The address of a designator with `count` indices, which `indices` evaluates, and the type
of what is stored there. The indices are evaluated only if the variable has that many
dimensions. -/
def address (env : Environment) (name : String) (count : Nat) (indices : Emit (List Value)) :
    Emit (Value × Ty) :=
  match findVariable env name with
  | .error e => fail e
  | .ok cell =>
    if count = 0 then pure (cell.storage, cell.ty)
    else match cell.ty.strip count with
      | none => fail (.notAnArray cell.name)
      | some element => do
        let indices ← indices
        let place ← result .ptr (.element · cell.ty cell.storage (.integer 0 :: indices))
        pure (place, element)

/-- An index of an array, as an INTEGER. -/
def index (value : Value) : Emit Value :=
  match value.ty with
  | .int _ => coerce value .integer
  | found => fail (.typeMismatch .integer found)

/-- The value of a designator. A constant has no elements, and an array is no value. -/
def designator (env : Environment) (name : String) (plain : Bool) (count : Nat)
    (indices : Emit (List Value)) : Emit Value :=
  match env.lookup name with
  | some (.constant value) => if plain then constant value else fail (.notAnArray name)
  | _ => do
    let (place, ty) ← address env name count indices
    if ty.isArray then fail .arrayValue else load ty place

/-- A call with `count` arguments, which `arguments` evaluates for given parameters. The
result is the value of the call, if the procedure is a function. -/
def call (env : Environment) (name : String) (count : Nat)
    (arguments : List Parameter → Emit (List Value)) : Emit (Option Value) :=
  if builtins.contains name then fail (.noValue name)
  else match env.lookup name with
    | some (.procedure signature) =>
      if signature.parameters.length ≠ count then
        fail (.argumentCount name signature.parameters.length count)
      else do
        let arguments ← arguments signature.parameters
        if signature.result = .void then do
          push (.call none signature.symbol signature.result arguments)
          pure none
        else do
          let value ← result signature.result
            (fun out => .call (some out) signature.symbol signature.result arguments)
          pure (some value)
    | _ => fail (.unresolved "procedure" name)

/-- An argument passed by reference: a variable whose type is exactly the parameter's. -/
def reference (parameter : Parameter) (place : Value × Ty) : Emit Value :=
  if place.2 = parameter.ty then pure place.1
  else fail (.typeMismatch parameter.ty place.2)

/-- The argument at a position, for its parameter. One passed by reference has to have a place;
any other is a value of the parameter's type. -/
def argument (procedure : String) (position : Nat) (parameter : Parameter)
    (place : Option (Emit (Value × Ty))) (value : Emit Value) : Emit Value :=
  if parameter.byReference then
    match place with
    | some place => do
      let place ← place
      reference parameter place
    | none => fail (.malformedReference procedure position)
  else do
    let value ← value
    coerce value parameter.ty

end Emit

/-- The number of indices in all selectors. -/
def indexCount (selectors : List (List Expr)) : Nat :=
  selectors.flatten.length

mutual

/-- Emits the code of an expression, and gives its value. -/
def Expr.emit (env : Environment) : Expr → Emit Value
  | .literal value => Emit.literal value
  | .designator name selectors =>
    Emit.designator env name selectors.isEmpty (indexCount selectors)
      (emitSelectors env selectors)
  | .call callee arguments => do
    let value ← Emit.call env callee arguments.length
      (fun parameters => emitArguments env callee 1 parameters arguments)
    match value with
    | some value => pure value
    | none => Emit.fail (.noValue callee)
  | .not operand => do
    let value ← operand.emit env
    Emit.not value
  | .negate operand => do
    let value ← operand.emit env
    Emit.negate value
  | .binary lhs op rhs => do
    let a ← lhs.emit env
    let b ← rhs.emit env
    Emit.arithmetic op a b
  | .relation lhs op rhs => do
    let a ← lhs.emit env
    let b ← rhs.emit env
    Emit.compare op a b

/-- Evaluates the indices of all selectors, in order. -/
def emitSelectors (env : Environment) : List (List Expr) → Emit (List Value)
  | [] => pure []
  | selector :: rest => do
    let first ← emitIndices env selector
    let others ← emitSelectors env rest
    pure (first ++ others)

/-- Evaluates the indices of one selector, in order. -/
def emitIndices (env : Environment) : List Expr → Emit (List Value)
  | [] => pure []
  | e :: rest => do
    let value ← e.emit env
    let first ← Emit.index value
    let others ← emitIndices env rest
    pure (first :: others)

/-- Evaluates arguments for parameters, in order; `position` is that of the first one. -/
def emitArguments (env : Environment) (procedure : String) :
    Nat → List Parameter → List Expr → Emit (List Value)
  | _, _, [] => pure []
  | _, [], _ :: _ => pure []
  | position, parameter :: parameters, e :: rest => do
    let first ← Emit.argument procedure position parameter
      (match e with
        | .designator name selectors =>
          some (Emit.address env name (indexCount selectors) (emitSelectors env selectors))
        | _ => none)
      (e.emit env)
    let others ← emitArguments env procedure (position + 1) parameters rest
    pure (first :: others)

end

/-- The address of a designator, and the type of what is stored there. -/
def Designator.emitAddress (env : Environment) (d : Designator) : Emit (Value × Ty) :=
  Emit.address env d.name (indexCount d.selectors) (emitSelectors env d.selectors)

/-- The truth value of a condition. -/
def Expr.emitCondition (env : Environment) (e : Expr) : Emit Value := do
  let value ← e.emit env
  Emit.truth value

/-- A call that stands as a statement; its value is not used. -/
def emitCall (env : Environment) (name : String) (arguments : List Expr) : Emit Unit := do
  discard (Emit.call env name arguments.length
    (fun parameters => emitArguments env name 1 parameters arguments))

end Oberon
