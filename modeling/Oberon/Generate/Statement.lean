import Oberon.Generate.Console

/-!
# Statements

Every control structure becomes blocks of its own:

* IF: `if.then`, `elsif.cond`, `if.else`, `if.end`;
* WHILE: `while.cond`, `while.body`, `while.end`;
* REPEAT: `repeat.body`, `repeat.cond`, `repeat.end`;
* FOR: `for.cond`, `for.body`, `for.inc`, `for.end`;
* CASE: `case.cond`, `case.body`, `case.else`, `case.end`.

BREAK, CONTINUE and RETURN end the current block and go on in a new one that nothing leads
to, which takes whatever statements follow.
-/

namespace Oberon

open Code

/-- Where CONTINUE and BREAK of a loop go. -/
structure Loop where
  next : Nat
  exit : Nat

/-- What the statements of a body have in common. -/
structure Scene where
  env : Environment
  /-- The result type of the function. -/
  result : Ty

namespace Emit

/-- Ends the current block with a branch. -/
def branch (condition : Value) (onTrue onFalse : Nat) : Emit Unit :=
  terminate (.branch condition onTrue onFalse)

/-- Ends the current block, and goes on in a block that nothing leads to. -/
def leave (t : Terminator) (name : String) : Emit Unit := do
  terminate t
  let label ← newBlock name
  switchTo label

/-- A new block if one is wanted, and the given one otherwise. -/
def blockIf (wanted : Bool) (name : String) (label : Nat) : Emit Nat :=
  if wanted then newBlock name else pure label

/-- Whether one of two tests holds, the first of which may be missing. -/
def either (before : Option Value) (test : Value) : Emit Value :=
  match before with
  | none => pure test
  | some before => binary .or before test

/-- Whether a value equals one of the labels of a CASE branch; `found` is what the labels
before gave. -/
def matchLabels (selector : Value) : Option Value → List Literal → Emit Value
  | found, [] => pure (found.getD (.boolean false))
  | found, label :: rest => do
    let label ← literal label
    let test ← compare .equal selector label
    let found ← either found test
    matchLabels selector (some found) rest

/-- One branch of an IF. It tests its condition in the current block, and makes the block that
`next` gives the current one. -/
def ifBranch (condition : Emit Value) (next : Emit Nat) (done : Nat) (body : Emit Unit) :
    Emit Unit := do
  let condition ← condition
  let inner ← newBlock "if.then"
  let next ← next
  branch condition inner next
  switchTo inner
  body
  jump done
  switchTo next

/-- The block after a branch of an IF: the test of the next branch, the ELSE part, or the end. -/
def afterBranch (isLast hasElse : Bool) (done : Nat) : Emit Nat :=
  if isLast then blockIf hasElse "if.else" done else newBlock "elsif.cond"

/-- An ELSE part, which leads to the end. -/
def elsePart (done : Nat) (body : Emit Unit) : Emit Unit := do
  body
  jump done
  switchTo done

/-- WHILE. -/
def whileDo (condition : Emit Value) (body : Loop → Emit Unit) : Emit Unit := do
  let test ← newBlock "while.cond"
  let inner ← newBlock "while.body"
  let done ← newBlock "while.end"
  jump test
  switchTo test
  let condition ← condition
  branch condition inner done
  switchTo inner
  body ⟨test, done⟩
  jump test
  switchTo done

/-- REPEAT. Unlike WHILE, it ends once the condition holds. -/
def repeatUntil (body : Loop → Emit Unit) (condition : Emit Value) : Emit Unit := do
  let inner ← newBlock "repeat.body"
  let test ← newBlock "repeat.cond"
  let done ← newBlock "repeat.end"
  jump inner
  switchTo inner
  body ⟨test, done⟩
  jump test
  switchTo test
  let condition ← condition
  branch condition done inner
  switchTo done

/-- The comparison under which a FOR loop goes on. -/
def goesOn : Direction → RelationOp
  | .up => .lessOrEqual
  | .down => .greaterOrEqual

/-- The operation that takes the counter of a FOR loop to its next value. -/
def advance : Direction → BinOp
  | .up => .add
  | .down => .sub

/-- The loop of a FOR whose counter is stored in `place`, once the counter has its first value
and the limit is known. -/
def countTo (place : Value) (bits : Nat) (limit : Value) (direction : Direction)
    (body : Loop → Emit Unit) : Emit Unit := do
  let test ← newBlock "for.cond"
  let inner ← newBlock "for.body"
  let step ← newBlock "for.inc"
  let done ← newBlock "for.end"
  jump test
  switchTo test
  let current ← load (.int bits) place
  let more ← compare (goesOn direction) current limit
  branch more inner done
  switchTo inner
  body ⟨step, done⟩
  jump step
  switchTo step
  let current ← load (.int bits) place
  let next ← binary (advance direction) current (.int 1 bits)
  push (.store next place)
  jump test
  switchTo done

/-- FOR. The limit is evaluated once, before the loop and after the counter is set. -/
def forDo (counter : Emit (Value × Nat)) (start limit : Emit Value) (direction : Direction)
    (body : Loop → Emit Unit) : Emit Unit := do
  let (place, bits) ← counter
  let start ← start
  let start ← coerce start (.int bits)
  push (.store start place)
  let limit ← limit
  let limit ← coerce limit (.int bits)
  countTo place bits limit direction body

/-- One branch of a CASE, which is tested in block `test`. -/
def caseBranch (selector : Value) (labels : List Literal) (test done : Nat) (next : Emit Nat)
    (body : Emit Unit) : Emit Nat := do
  switchTo test
  let found ← matchLabels selector none labels
  let inner ← newBlock "case.body"
  let next ← next
  branch found inner next
  switchTo inner
  body
  jump done
  pure next

/-- The start of a CASE: its selector, the end, the block for any other value, and the block of
the first test, to which it jumps. -/
def caseHead (selector : Emit Value) (hasElse : Bool) : Emit (Value × Nat × Nat × Nat) := do
  let selector ← selector
  let done ← newBlock "case.end"
  let fallback ← blockIf hasElse "case.else" done
  let test ← newBlock "case.cond"
  jump test
  pure (selector, done, fallback, test)

/-- Goes from the tests of a CASE to the block for any other value, to which a CASE without
branches jumps from its only test. -/
def caseFallback (isEmpty : Bool) (test fallback : Nat) : Emit Unit :=
  if isEmpty then do
    switchTo test
    jump fallback
    switchTo fallback
  else switchTo fallback

end Emit

/-- An assignment of an array: a copy as a whole, from a variable of the same type. -/
def emitArrayCopy (env : Environment) (place : Value) (ty : Ty) (source : Designator) :
    Emit Unit := do
  let (source, found) ← source.emitAddress env
  if found = ty then
    match ty.size? with
    | some bytes => Emit.push (.copy place source bytes)
    | none => Emit.fail (.oversized ty)
  else Emit.fail (.typeMismatch ty found)

/-- An assignment of any other value, which is converted to the type of the target. -/
def emitStore (env : Environment) (place : Value) (ty : Ty) (value : Expr) : Emit Unit := do
  let value ← value.emit env
  let value ← Emit.coerce value ty
  Emit.push (.store value place)

/-- An assignment. The target comes first. -/
def emitAssign (env : Environment) (target : Designator) (value : Expr) : Emit Unit := do
  let (place, ty) ← target.emitAddress env
  match ty.isArray, value with
  | true, .designator name selectors => emitArrayCopy env place ty { name, selectors }
  | _, _ => emitStore env place ty value

/-- What RETURN returns. Without a value, a function returns the zero of its type; a procedure
evaluates a value and drops it. -/
def emitResult (scene : Scene) : Option Expr → Emit (Option Value)
  | none => pure (Value.zero? scene.result)
  | some e => do
    let value ← e.emit scene.env
    if scene.result = .void then pure none
    else do
      let value ← Emit.coerce value scene.result
      pure (some value)

/-- RETURN. -/
def emitReturn (scene : Scene) (value : Option Expr) : Emit Unit := do
  let value ← emitResult scene value
  Emit.leave (.ret value) "return.unreachable"

/-- The counter of a FOR loop: where it is stored, and its width in bits. It is an integer and
no BOOLEAN. -/
def emitCounter (env : Environment) (name : String) : Emit (Value × Nat) :=
  match Emit.findVariable env name with
  | .error (.unresolved _ name) => Emit.fail (.unresolved "loop variable" name)
  | .error e => Emit.fail e
  | .ok cell =>
    match cell.ty with
    | .int bits =>
      if bits = 1 then Emit.fail (.typeMismatch .integer cell.ty) else pure (cell.storage, bits)
    | _ => Emit.fail (.typeMismatch .integer cell.ty)

/-- A call that stands as a statement, of a procedure of the language or of the program. -/
def emitCallStatement (env : Environment) (name : String) (arguments : List Expr) : Emit Unit :=
  if name = "WRITE" then emitWrite env arguments
  else if name = "WRITELN" then emitWriteln env arguments
  else if name = "READ" then emitRead env arguments
  else emitCall env name arguments

/-- BREAK. -/
def emitBreak : Option Loop → Emit Unit
  | some loop => Emit.leave (.jump loop.exit) "break.unreachable"
  | none => Emit.fail (.misplacedJump "BREAK")

/-- CONTINUE. -/
def emitContinue : Option Loop → Emit Unit
  | some loop => Emit.leave (.jump loop.next) "continue.unreachable"
  | none => Emit.fail (.misplacedJump "CONTINUE")

mutual

/-- Emits the code of a statement inside of `loop`, if it is inside of one. -/
def Statement.emit (scene : Scene) (loop : Option Loop) : Statement → Emit Unit
  | .assign target value => emitAssign scene.env target value
  | .call name arguments => emitCallStatement scene.env name arguments
  | .ifThen branches otherwise => do
    let done ← Emit.newBlock "if.end"
    emitBranches scene loop done otherwise.isSome branches
    emitElse scene loop done otherwise
  | .whileDo condition body =>
    Emit.whileDo (condition.emitCondition scene.env)
      (fun loop => emitStatements scene (some loop) body)
  | .repeatUntil body condition =>
    Emit.repeatUntil (fun loop => emitStatements scene (some loop) body)
      (condition.emitCondition scene.env)
  | .forDo counter start limit direction body =>
    Emit.forDo (emitCounter scene.env counter) (start.emit scene.env) (limit.emit scene.env)
      direction (fun loop => emitStatements scene (some loop) body)
  | .caseOf selector branches otherwise => do
    let (selector, done, fallback, test) ←
      Emit.caseHead (selector.emit scene.env) otherwise.isSome
    emitCases scene loop selector done fallback test branches
    Emit.caseFallback branches.isEmpty test fallback
    emitElse scene loop done otherwise
  | .breakLoop => emitBreak loop
  | .continueLoop => emitContinue loop
  | .returnWith value => emitReturn scene value

/-- Emits the code of statements in a row. -/
def emitStatements (scene : Scene) (loop : Option Loop) : List Statement → Emit Unit
  | [] => pure ()
  | s :: rest => do
    s.emit scene loop
    emitStatements scene loop rest

/-- Emits an ELSE part, if there is one, in the current block. -/
def emitElse (scene : Scene) (loop : Option Loop) (done : Nat) :
    Option (List Statement) → Emit Unit
  | none => pure ()
  | some body => Emit.elsePart done (emitStatements scene loop body)

/-- Emits the branches of an IF, each of which tests its condition in the current block and
leads to the next one. After the last one comes the ELSE part, or the end. -/
def emitBranches (scene : Scene) (loop : Option Loop) (done : Nat) (hasElse : Bool) :
    List (Expr × List Statement) → Emit Unit
  | [] => pure ()
  | (condition, body) :: rest => do
    Emit.ifBranch (condition.emitCondition scene.env)
      (Emit.afterBranch rest.isEmpty hasElse done) done (emitStatements scene loop body)
    emitBranches scene loop done hasElse rest

/-- Emits the branches of a CASE, the first of which is tested in block `test`. After the last
one comes `fallback`. -/
def emitCases (scene : Scene) (loop : Option Loop) (selector : Value)
    (done fallback test : Nat) : List (List Literal × List Statement) → Emit Unit
  | [] => pure ()
  | (labels, body) :: rest => do
    let next ← Emit.caseBranch selector labels test done
      (Emit.blockIf (!rest.isEmpty) "case.cond" fallback) (emitStatements scene loop body)
    emitCases scene loop selector done fallback next rest

end

end Oberon
