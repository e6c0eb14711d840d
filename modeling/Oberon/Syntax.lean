import Oberon.Number.Double

/-!
# Oberon-0 programs

The tree of an Oberon-0 module: expressions, types, statements, and the declarations of a
module or procedure. A declaration section keeps its four groups apart; inside a group the
order is that of the program.
-/

namespace Oberon

/-- A literal. -/
inductive Literal where
  | integer (value : Int64)
  | real (value : Double)
  | boolean (value : Bool)
  | string (value : String)
  | nil
  deriving DecidableEq

/-- The arithmetic and logical operators. -/
inductive BinaryOp where
  | add | sub | mul | divide | div | mod | and | or
  deriving DecidableEq

/-- The comparison operators. -/
inductive RelationOp where
  | equal | notEqual | less | lessOrEqual | greater | greaterOrEqual
  deriving DecidableEq

/-- How an operator is written. -/
def BinaryOp.symbol : BinaryOp → String
  | .add => "+"
  | .sub => "-"
  | .mul => "*"
  | .divide => "/"
  | .div => "DIV"
  | .mod => "MOD"
  | .and => "AND"
  | .or => "OR"

/-- How a comparison is written. -/
def RelationOp.symbol : RelationOp → String
  | .equal => "="
  | .notEqual => "#"
  | .less => "<"
  | .lessOrEqual => "<="
  | .greater => ">"
  | .greaterOrEqual => ">="

/-- An expression. A designator is a name followed by selectors, each of which holds the
indices between one pair of brackets: `a[i, j]` has one selector and `a[i][j]` has two. -/
inductive Expr where
  | literal (value : Literal)
  | designator (name : String) (selectors : List (List Expr))
  | call (callee : String) (arguments : List Expr)
  | not (operand : Expr)
  | negate (operand : Expr)
  | binary (lhs : Expr) (op : BinaryOp) (rhs : Expr)
  | relation (lhs : Expr) (op : RelationOp) (rhs : Expr)

/-- A variable or an element of one, as the target of an assignment. -/
structure Designator where
  name : String
  selectors : List (List Expr) := []

/-- A type as it is written. -/
inductive TypeExpr where
  | integer
  | real
  | boolean
  | string
  | named (name : String)
  /-- `ARRAY d1, d2, ... OF T`. -/
  | array (dimensions : List Expr) (element : TypeExpr)

/-- Which way a FOR loop counts. -/
inductive Direction where
  | up | down
  deriving DecidableEq

/-- A statement. Calls include `WRITE`, `WRITELN` and `READ`. Where an ELSE part may stand,
its absence and an empty part are different trees. -/
inductive Statement where
  | assign (target : Designator) (value : Expr)
  | call (procedure : String) (arguments : List Expr)
  | ifThen (branches : List (Expr × List Statement)) (otherwise : Option (List Statement))
  | whileDo (condition : Expr) (body : List Statement)
  | repeatUntil (body : List Statement) (condition : Expr)
  | forDo (counter : String) (start limit : Expr) (direction : Direction)
      (body : List Statement)
  | caseOf (selector : Expr) (branches : List (List Literal × List Statement))
      (otherwise : Option (List Statement))
  | breakLoop
  | continueLoop
  | returnWith (value : Option Expr)

/-- Parameters that share a type, as in `VAR a, b: INTEGER`. -/
structure FormalSection where
  byReference : Bool
  names : List String
  type : TypeExpr

/-- The declarations of a module or procedure, over a type of nested procedures. -/
structure Declarations (α : Type) where
  constants : List (String × Expr) := []
  types : List (String × TypeExpr) := []
  vars : List (List String × TypeExpr) := []
  procedures : List α := []

/-- A procedure. One with a result type is a function. -/
inductive Procedure where
  | mk (name : String) (parameters : List FormalSection) (result : Option TypeExpr)
      (declarations : Declarations Procedure) (body : List Statement)

/-- A module. Without a body it has nothing to run. -/
structure Module where
  name : String
  declarations : Declarations Procedure := {}
  body : Option (List Statement) := none

end Oberon
