import Mathlib.Algebra.Group.Int.Defs
import Oberon.Machine.Run
import Oberon.Syntax

/-!
# What programs mean

A big-step semantics of modules without procedures, on their trees: no code, no addresses, no
temporaries. Expressions are evaluated from left to right, all of their parts. A statement leads
from one situation to another, unless it leaves a loop or the program, or fails. Declarations are
read here as well: what constants are worth, how long arrays are, and what type names stand for.

Loops are cut off: `n` bounds the number of times that every loop may go round, and a program
whose loops go round more often is still `pending`. All other results do not depend on `n`.
-/

namespace Oberon

open Code
open Machine (Fault Execution)

/-! ## Data -/

/-- A value. The text of a STRING is missing if it is NIL. -/
inductive Datum where
  | integer (value : Int64)
  | real (value : Double)
  | boolean (value : Bool)
  | string (text : Option String)
  deriving DecidableEq

/-- What has no meaning. -/
def meaningless {α : Type} : Except Fault α :=
  .error (.malformed "no meaning")

namespace Datum

/-- The type of a value. -/
def ty : Datum → Ty
  | .integer _ => .integer
  | .real _ => .real
  | .boolean _ => .boolean
  | .string _ => .string

/-- The number that a truth value counts as: TRUE is -1. -/
def ofTruth (b : Bool) : Int64 :=
  if b then -1 else 0

/-- Whether a value counts as true: whether it differs from zero. A NaN does not. -/
def truth : Datum → Except Fault Bool
  | .integer v => .ok (v ≠ 0)
  | .real x => .ok (((x.compare? .zero).map (· != .eq)).getD false)
  | .boolean b => .ok b
  | .string _ => meaningless

/-- A number or truth value as an INTEGER; a REAL is cut off toward zero. -/
def toInteger : Datum → Except Fault Int64
  | .integer v => .ok v
  | .real x => .ok x.toInt64
  | .boolean b => .ok (ofTruth b)
  | .string _ => meaningless

/-- A number or truth value as a REAL. -/
def toReal : Datum → Except Fault Double
  | .integer v => .ok (.ofInt64 v)
  | .real x => .ok x
  | .boolean b => .ok (.ofInt64 (ofTruth b))
  | .string _ => meaningless

/-- A value converted to a type. -/
def convert (d : Datum) : Ty → Except Fault Datum
  | .int 64 => d.toInteger.map .integer
  | .int 1 => d.truth.map .boolean
  | .real => d.toReal.map .real
  | .ptr =>
    match d with
    | .string text => .ok (.string text)
    | _ => meaningless
  | _ => meaningless

/-- The operators on INTEGERs wrap around; division cuts off toward zero. -/
def integerOp (op : BinaryOp) (a b : Int64) : Except Fault Int64 :=
  match op with
  | .add => .ok (a + b)
  | .sub => .ok (a - b)
  | .mul => .ok (a * b)
  | .divide | .div => if b = 0 then .error .divisionByZero else .ok (a / b)
  | .mod => if b = 0 then .error .divisionByZero else .ok (a % b)
  | .and => .ok (a &&& b)
  | .or => .ok (a ||| b)

/-- The operators on truth values are those on numbers of one bit. -/
def booleanOp (op : BinaryOp) (a b : Bool) : Except Fault Bool :=
  match op with
  | .add | .sub => .ok (a ^^ b)
  | .mul | .and => .ok (a && b)
  | .or => .ok (a || b)
  | .divide | .div => if b then .ok a else .error .divisionByZero
  | .mod => if b then .ok false else .error .divisionByZero

/-- The operators on REALs. -/
def realOp (op : BinaryOp) (a b : Double) : Except Fault Double :=
  match op with
  | .add => .ok (a.add b)
  | .sub => .ok (a.sub b)
  | .mul => .ok (a.mul b)
  | .divide => .ok (a.div b)
  | .div | .mod | .and | .or => meaningless

/-- An operator on two values. Beside a REAL any value counts as a REAL, and beside an INTEGER a
truth value counts as an INTEGER. -/
def binary (op : BinaryOp) : Datum → Datum → Except Fault Datum
  | .boolean a, .boolean b => (booleanOp op a b).map .boolean
  | .real a, b => do
    let b ← b.toReal
    (realOp op a b).map .real
  | a, .real b => do
    let a ← a.toReal
    (realOp op a b).map .real
  | a, b => do
    let a ← a.toInteger
    let b ← b.toInteger
    (integerOp op a b).map .integer

/-- The comparisons of INTEGERs. -/
def compareIntegers (op : RelationOp) (a b : Int64) : Bool :=
  match op with
  | .equal => a = b
  | .notEqual => a ≠ b
  | .less => a < b
  | .lessOrEqual => a ≤ b
  | .greater => b < a
  | .greaterOrEqual => b ≤ a

/-- The comparisons of REALs. None holds beside a NaN, not even that two numbers differ. -/
def compareReals (op : RelationOp) (a b : Double) : Bool :=
  match a.compare? b with
  | none => false
  | some order =>
    match op with
    | .equal => order = .eq
    | .notEqual => order ≠ .eq
    | .less => order = .lt
    | .lessOrEqual => order ≠ .gt
    | .greater => order = .gt
    | .greaterOrEqual => order ≠ .lt

/-- Whether a comparison of two values holds. Truth values compare as numbers. -/
def relation (op : RelationOp) : Datum → Datum → Except Fault Bool
  | .real a, b => do
    let b ← b.toReal
    .ok (compareReals op a b)
  | a, .real b => do
    let a ← a.toReal
    .ok (compareReals op a b)
  | a, b => do
    let a ← a.toInteger
    let b ← b.toInteger
    .ok (compareIntegers op a b)

/-- The opposite of a number. A number of one bit is its own opposite. -/
def negate : Datum → Except Fault Datum
  | .integer v => .ok (.integer (-v))
  | .real x => .ok (.real x.neg)
  | .boolean b => .ok (.boolean b)
  | .string _ => meaningless

/-- An index of an array. -/
def index : Datum → Except Fault Int64
  | .real _ => meaningless
  | d => d.toInteger

/-- How a value is written. A STRING ends before its first zero character, and NIL cannot be
written. -/
def text : Datum → Except Fault String
  | .integer v => .ok (toString v.toInt)
  | .real x => .ok (Decimal.toFixed 6 x)
  | .boolean b => .ok (toString (ofTruth b).toInt)
  | .string (some text) => .ok (String.ofList (text.toList.takeWhile (· ≠ '\x00')))
  | .string none => .error (.badAddress 0)

/-- The value of a type that a word of the input means. -/
def ofWord? (word : String) : Ty → Option Datum
  | .int 64 => (Word.ofText? word).map .integer
  | .real => (Decimal.ofText? word).map .real
  | _ => none

/-- What all scalars of a type are before the first assignment. -/
def zero : Ty → Datum
  | .array _ element => zero element
  | .int 1 => .boolean false
  | .real => .real .zero
  | .ptr => .string none
  | _ => .integer 0

end Datum

/-- The value of a literal. -/
def Literal.datum : Literal → Datum
  | .integer value => .integer value
  | .real value => .real value
  | .boolean value => .boolean value
  | .string value => .string (some value)
  | .nil => .string none

/-! ## Variables -/

/-- What a name means: a constant, or a variable of a type. -/
inductive Meaning where
  | constant (value : Datum)
  | variable (ty : Ty)

/-- What names mean. -/
abbrev Scope := String → Option Meaning

/-- The values of all variables. A variable consists of scalars, each at the end of a path of
indices, the outermost first. -/
abbrev Store := String → List Nat → Datum

namespace Store

/-- The store with another value for a scalar. -/
def write (store : Store) (name : String) (path : List Nat) (value : Datum) : Store :=
  fun x p => if x = name ∧ p = path then value else store x p

/-- The store with a part of one variable in place of a part of another, or of the same one. -/
def copy (store : Store) (name : String) (path : List Nat) (source : String)
    (origin : List Nat) : Store :=
  fun x p =>
    if x = name ∧ path.isPrefixOf p then store source (origin ++ p.drop path.length)
    else store x p

end Store

/-- Where indices lead in a value of a type: the path, and the type of what is there. Each index
has to be in the range of its dimension; the first that is not is the fault. -/
def Code.Ty.follow : Ty → List Int64 → Except Fault (List Nat × Ty)
  | ty, [] => .ok ([], ty)
  | .array length element, index :: rest =>
    if 0 ≤ index.toInt ∧ index.toInt < length then do
      let (path, found) ← element.follow rest
      .ok (index.toInt.toNat :: path, found)
    else .error (.indexOutOfRange index)
  | _, _ :: _ => meaningless

/-! ## Expressions -/

mutual

/-- The value of an expression. -/
def Expr.eval (scope : Scope) (store : Store) : Expr → Except Fault Datum
  | .literal value => .ok value.datum
  | .designator name selectors =>
    match scope name with
    | some (.constant value) => .ok value
    | some (.variable ty) => do
      let indices ← evalSelectors scope store selectors
      let (path, _) ← ty.follow indices
      .ok (store name path)
    | none => meaningless
  | .call _ _ => meaningless
  | .not operand => do
    let d ← operand.eval scope store
    let b ← d.truth
    .ok (.boolean !b)
  | .negate operand => do
    let d ← operand.eval scope store
    d.negate
  | .binary lhs op rhs => do
    let a ← lhs.eval scope store
    let b ← rhs.eval scope store
    a.binary op b
  | .relation lhs op rhs => do
    let a ← lhs.eval scope store
    let b ← rhs.eval scope store
    let holds ← a.relation op b
    .ok (.boolean holds)

/-- The indices of all selectors, in order. -/
def evalSelectors (scope : Scope) (store : Store) : List (List Expr) → Except Fault (List Int64)
  | [] => .ok []
  | selector :: rest => do
    let first ← evalIndices scope store selector
    let others ← evalSelectors scope store rest
    .ok (first ++ others)

/-- The indices of one selector, in order. -/
def evalIndices (scope : Scope) (store : Store) : List Expr → Except Fault (List Int64)
  | [] => .ok []
  | e :: rest => do
    let d ← e.eval scope store
    let first ← d.index
    let others ← evalIndices scope store rest
    .ok (first :: others)

end

/-- Whether a condition holds. -/
def Expr.holds (scope : Scope) (store : Store) (e : Expr) : Except Fault Bool := do
  let d ← e.eval scope store
  d.truth

/-- Where a designator leads: the path in its variable, and the type of what is there. -/
def Designator.locate (scope : Scope) (store : Store) (d : Designator) :
    Except Fault (List Nat × Ty) :=
  match scope d.name with
  | some (.variable ty) => do
    let indices ← evalSelectors scope store d.selectors
    ty.follow indices
  | _ => meaningless

/-! ## Simple statements -/

/-- What statements change: the variables, the words of the input not yet read, and the output so
far. -/
structure Situation where
  store : Store
  input : List String
  output : String

namespace Situation

/-- The situation with another value for a scalar. -/
def write (σ : Situation) (name : String) (path : List Nat) (value : Datum) : Situation :=
  { σ with store := σ.store.write name path value }

/-- The situation with more output. -/
def print (σ : Situation) (text : String) : Situation :=
  { σ with output := σ.output ++ text }

/-- The situation after a word of the input was read into a variable. It is stored if it has the
form of a number of the variable's type; where the input has ended, nothing happens. -/
def read (σ : Situation) (name : String) (ty : Ty) : Situation :=
  match σ.input with
  | [] => σ
  | word :: input =>
    match Datum.ofWord? word ty with
    | some d => { σ with input }.write name [] d
    | none => { σ with input }

end Situation

/-- An assignment. The target is located before the value is evaluated. An array is copied as a
whole; any other value is converted to the type of the target. -/
def assign (scope : Scope) (target : Designator) (value : Expr) (σ : Situation) :
    Except Fault Situation := do
  let (path, ty) ← target.locate scope σ.store
  match ty, value with
  | .array .., .designator name selectors => do
    let (origin, _) ← Designator.locate scope σ.store { name, selectors }
    .ok { σ with store := σ.store.copy target.name path name origin }
  | _, _ => do
    let d ← value.eval scope σ.store
    let d ← d.convert ty
    .ok (σ.write target.name path d)

/-- WRITE: each value is evaluated and written before the next one. -/
def writeAll (scope : Scope) : List Expr → Situation → Except Fault Situation
  | [], σ => .ok σ
  | e :: rest, σ => do
    let d ← e.eval scope σ.store
    let text ← d.text
    writeAll scope rest (σ.print text)

/-- READ: one variable takes a word of the input. -/
def readInto (scope : Scope) : List Expr → Situation → Except Fault Situation
  | [.designator name []], σ =>
    match scope name with
    | some (.variable ty) => .ok (σ.read name ty)
    | _ => meaningless
  | _, _ => meaningless

/-- A call of one of the procedures that are part of the language. -/
def callBuiltin (scope : Scope) (name : String) (arguments : List Expr) (σ : Situation) :
    Except Fault Situation :=
  if name = "WRITE" then writeAll scope arguments σ
  else if name = "WRITELN" then do
    let σ ← writeAll scope arguments σ
    .ok (σ.print "\n")
  else if name = "READ" then readInto scope arguments σ
  else meaningless

/-- Whether a value equals one of the labels of a CASE branch. -/
def Datum.isAmong (d : Datum) : List Literal → Except Fault Bool
  | [] => .ok false
  | label :: rest => do
    let first ← d.relation .equal label.datum
    let others ← d.isAmong rest
    .ok (first || others)

/-- The status that RETURN ends a program with: the low half of its value, or 0. -/
def returnStatus (scope : Scope) (store : Store) : Option Expr → Except Fault Int32
  | none => .ok 0
  | some e => do
    let d ← e.eval scope store
    let v ← d.toInteger
    .ok v.toInt32

/-! ## Control structures -/

/-- What a statement leads to. -/
inductive Outcome where
  | done (σ : Situation)
  /-- The innermost loop is left. -/
  | broke (σ : Situation)
  /-- The innermost loop goes on with its next round. -/
  | continued (σ : Situation)
  /-- The program ends. -/
  | returned (status : Int32) (σ : Situation)
  | failed (e : Fault)
  /-- A loop has not ended yet. -/
  | pending

namespace Outcome

/-- Goes on unless the statement before left, failed or did not end. -/
def andThen (o : Outcome) (next : Situation → Outcome) : Outcome :=
  match o with
  | .done σ => next σ
  | .broke σ => .broke σ
  | .continued σ => .continued σ
  | .returned status σ => .returned status σ
  | .failed e => .failed e
  | .pending => .pending

/-- What the body of a loop leads to in the loop, where `next` is what follows a whole round. -/
def afterRound (o : Outcome) (next : Situation → Outcome) : Outcome :=
  match o with
  | .done σ => next σ
  | .broke σ => .done σ
  | .continued σ => next σ
  | .returned status σ => .returned status σ
  | .failed e => .failed e
  | .pending => .pending

/-- Goes on with a result. -/
def ofResult {α : Type} (r : Except Fault α) (next : α → Outcome) : Outcome :=
  match r with
  | .ok a => next a
  | .error e => .failed e

end Outcome

/-- A loop that tests before each round, at most `n` times. After a round comes `step`. -/
def pretested (test : Situation → Except Fault Bool) (body step : Situation → Outcome) :
    Nat → Situation → Outcome
  | 0, _ => .pending
  | n + 1, σ =>
    .ofResult (test σ) fun more =>
      if more then
        (body σ).afterRound fun σ => (step σ).andThen (pretested test body step n)
      else .done σ

/-- A loop that tests after each round, and goes round at most `n` times. -/
def posttested (body : Situation → Outcome) (test : Situation → Except Fault Bool) :
    Nat → Situation → Outcome
  | 0, _ => .pending
  | n + 1, σ =>
    (body σ).afterRound fun σ =>
      .ofResult (test σ) fun enough => if enough then .done σ else posttested body test n σ

/-- Whether a FOR loop goes on at a value of its counter. -/
def Direction.goesOn (direction : Direction) (current last : Int64) : Bool :=
  match direction with
  | .up => current ≤ last
  | .down => last ≤ current

/-- The value of the counter after another one. -/
def Direction.next (direction : Direction) (current : Int64) : Int64 :=
  match direction with
  | .up => current + 1
  | .down => current - 1

/-- The start of a FOR: the counter, an INTEGER variable, gets its first value, and then the limit
is evaluated. -/
def startCounting (scope : Scope) (counter : String) (start limit : Expr) (σ : Situation) :
    Except Fault (Situation × Int64) :=
  match scope counter with
  | some (.variable (.int 64)) => do
    let d ← start.eval scope σ.store
    let first ← d.toInteger
    let σ := σ.write counter [] (.integer first)
    let d ← limit.eval scope σ.store
    let last ← d.toInteger
    .ok (σ, last)
  | _ => meaningless

/-- Whether a FOR loop goes on. The counter may have been changed by the body. -/
def countsOn (direction : Direction) (counter : String) (last : Int64) (σ : Situation) :
    Except Fault Bool := do
  let current ← (σ.store counter []).toInteger
  .ok (direction.goesOn current last)

/-- Takes the counter of a FOR loop to its next value. -/
def countOn (direction : Direction) (counter : String) (σ : Situation) : Outcome :=
  .ofResult (σ.store counter []).toInteger fun current =>
    .done (σ.write counter [] (.integer (direction.next current)))

mutual

/-- What a statement leads to, if no loop goes round more than `n` times. -/
def Statement.exec (scope : Scope) (n : Nat) : Statement → Situation → Outcome
  | .assign target value, σ => .ofResult (assign scope target value σ) .done
  | .call name arguments, σ => .ofResult (callBuiltin scope name arguments σ) .done
  | .ifThen branches otherwise, σ =>
    execBranches scope n branches (execElse scope n otherwise) σ
  | .whileDo condition body, σ =>
    pretested (fun σ => condition.holds scope σ.store) (execStatements scope n body) .done n σ
  | .repeatUntil body condition, σ =>
    posttested (execStatements scope n body) (fun σ => condition.holds scope σ.store) n σ
  | .forDo counter start limit direction body, σ =>
    .ofResult (startCounting scope counter start limit σ) fun (σ, last) =>
      pretested (countsOn direction counter last) (execStatements scope n body)
        (countOn direction counter) n σ
  | .caseOf selector branches otherwise, σ =>
    .ofResult (selector.eval scope σ.store) fun d =>
      execCases scope n d branches (execElse scope n otherwise) σ
  | .breakLoop, σ => .broke σ
  | .continueLoop, σ => .continued σ
  | .returnWith value, σ =>
    .ofResult (returnStatus scope σ.store value) fun status => .returned status σ

/-- What statements in a row lead to. -/
def execStatements (scope : Scope) (n : Nat) : List Statement → Situation → Outcome
  | [], σ => .done σ
  | s :: rest, σ => (s.exec scope n σ).andThen (execStatements scope n rest)

/-- What an ELSE part leads to, if there is one. -/
def execElse (scope : Scope) (n : Nat) : Option (List Statement) → Situation → Outcome
  | none, σ => .done σ
  | some body, σ => execStatements scope n body σ

/-- What the first branch of an IF whose condition holds leads to, or `otherwise`. -/
def execBranches (scope : Scope) (n : Nat) :
    List (Expr × List Statement) → (Situation → Outcome) → Situation → Outcome
  | [], otherwise, σ => otherwise σ
  | (condition, body) :: rest, otherwise, σ =>
    .ofResult (condition.holds scope σ.store) fun holds =>
      if holds then execStatements scope n body σ
      else execBranches scope n rest otherwise σ

/-- What the first branch of a CASE with the selected value leads to, or `otherwise`. -/
def execCases (scope : Scope) (n : Nat) (selected : Datum) :
    List (List Literal × List Statement) → (Situation → Outcome) → Situation → Outcome
  | [], otherwise, σ => otherwise σ
  | (labels, body) :: rest, otherwise, σ =>
    .ofResult (selected.isAmong labels) fun found =>
      if found then execStatements scope n body σ
      else execCases scope n selected rest otherwise σ

end

/-! ## Declarations -/

namespace Datum

/-- Whether a number has 64 bits. -/
def fits (i : Int) : Bool :=
  -2 ^ 63 ≤ i ∧ i < 2 ^ 63

/-- Whether an operator on INTEGERs has its exact result, without wrapping around. A remainder
counts as exact if the quotient is. -/
def isExact (op : BinaryOp) (a b : Int64) : Bool :=
  match op with
  | .add => fits (a.toInt + b.toInt)
  | .sub => fits (a.toInt - b.toInt)
  | .mul => fits (a.toInt * b.toInt)
  | .divide | .div | .mod => fits (a.toInt.tdiv b.toInt)
  | .and | .or => true

/-- Whether a value is a number. -/
def isNumber : Datum → Bool
  | .integer _ | .real _ => true
  | .boolean _ | .string _ => false

/-- Whether the value of an operator is known before a program runs: not where an INTEGER would
wrap around, and of truth values only under AND and OR. -/
def isStatic (op : BinaryOp) : Datum → Datum → Bool
  | .integer a, .integer b => isExact op a b
  | .boolean _, .boolean _ => op = .and ∨ op = .or
  | a, b => a.isNumber && b.isNumber

/-- Whether it is known before a program runs if a comparison holds: truth values are only found
equal or not. -/
def isStaticRelation (op : RelationOp) : Datum → Datum → Bool
  | .boolean _, .boolean _ => op = .equal ∨ op = .notEqual
  | a, b => a.isNumber && b.isNumber

/-- Whether the opposite of a value is known before a program runs. -/
def isStaticOpposite : Datum → Bool
  | .integer v => fits (-v.toInt)
  | d => d.isNumber

/-- Whether the negation of a value is known before a program runs. -/
def isStaticNegation : Datum → Bool
  | .integer _ | .boolean _ => true
  | .real _ | .string _ => false

end Datum

/-- The value of an expression that is known before a program runs, given the values of
constants. It is the one that the expression has in a running program. -/
def Expr.known? (constants : List (String × Datum)) : Expr → Option Datum
  | .literal .nil => none
  | .literal value => some value.datum
  | .designator name [] => constants.lookup name
  | .designator _ (_ :: _) => none
  | .call .. => none
  | .not operand =>
    (operand.known? constants).bind fun d =>
      if d.isStaticNegation then (d.truth.map fun b => .boolean !b).toOption else none
  | .negate operand =>
    (operand.known? constants).bind fun d =>
      if d.isStaticOpposite then d.negate.toOption else none
  | .binary lhs op rhs =>
    (lhs.known? constants).bind fun a => (rhs.known? constants).bind fun b =>
      if a.isStatic op b then (a.binary op b).toOption else none
  | .relation lhs op rhs =>
    (lhs.known? constants).bind fun a => (rhs.known? constants).bind fun b =>
      if a.isStaticRelation op b then ((a.relation op b).map .boolean).toOption else none

/-- The length of an array in a dimension: the number that is written there, if it is known and
has 32 bits without a sign. Any other dimension, zero included, stands for one element. -/
def Expr.length (constants : List (String × Datum)) (e : Expr) : Nat :=
  match e.known? constants with
  | some (.integer v) => if 1 ≤ v.toInt ∧ v.toInt < 2 ^ 32 then v.toInt.toNat else 1
  | _ => 1

/-- The type that a type expression stands for, given the lengths of dimensions and the types that
names stand for. An array of several dimensions is one of arrays. -/
def TypeExpr.meaning (length : Expr → Nat) (named : String → Option Ty) : TypeExpr → Option Ty
  | .integer => some .integer
  | .real => some .real
  | .boolean => some .boolean
  | .string => some .string
  | .named name => named name
  | .array dimensions element =>
    (element.meaning length named).map fun ty =>
      dimensions.foldr (fun e inner => .array (length e) inner) ty

/-- The type that a declared name stands for, if no more than `n` definitions have to be read one
inside of the other. -/
def typeNamed (length : Expr → Nat) (types : List (String × TypeExpr)) : Nat → String → Option Ty
  | 0, _ => none
  | n + 1, name => (types.lookup name).bind fun type =>
    type.meaning length (typeNamed length types n)

/-- Constants and one more, if its value is known. -/
def withConstant (known : List (String × Datum)) (constant : String × Expr) :
    List (String × Datum) :=
  match constant.2.known? known with
  | some value => (constant.1, value) :: known
  | none => known

/-! ## Modules -/

namespace Module

/-- The constants of a module with their values, the last one first. Each may use those before
it. -/
def constants (m : Module) : List (String × Datum) :=
  m.declarations.constants.foldl withConstant []

/-- The type that a type expression of a module stands for. Definitions may use those before them
and those behind them; the last one of a name counts. -/
def typeOf (m : Module) (type : TypeExpr) : Ty :=
  let length := Expr.length m.constants
  let types := m.declarations.types.reverse
  (type.meaning length (typeNamed length types types.length)).getD .void

/-- The variables of a module with their types. -/
def varTypes (m : Module) : List (String × Ty) :=
  m.declarations.vars.flatMap fun (names, type) => names.map fun name => (name, m.typeOf type)

/-- What names mean in the body of a module. -/
def scope (m : Module) : Scope := fun name =>
  match m.constants.lookup name with
  | some value => some (.constant value)
  | none => (m.varTypes.lookup name).map .variable

/-- How a module starts: all variables are zero. -/
def initial (m : Module) (input : String) : Situation where
  store := fun name _ => .zero ((m.varTypes.lookup name).getD .void)
  input := Text.words input
  output := ""

/-- What a module without procedures does on an input, unless a loop goes round more than `n`
times. -/
def evaluate (m : Module) (input : String) (n : Nat) : Option (Except Fault Execution) :=
  match execStatements m.scope n (m.body.getD []) (m.initial input) with
  | .done σ => some (.ok ⟨0, σ.output⟩)
  | .returned status σ => some (.ok ⟨status, σ.output⟩)
  | .failed e => some (.error e)
  | .broke _ | .continued _ => some meaningless
  | .pending => none

end Module
end Oberon
