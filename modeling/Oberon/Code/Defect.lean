import Oberon.Code.Program

/-!
# Well-formed programs

A program is well formed if every generated function has blocks, every block ends in a
terminator whose targets exist, no temporary is defined twice in the whole program, every
call names a function of the program, and every return has the function's type. `check`
reports the first defect, function by function and block by block.
-/

namespace Oberon.Code

/-- What is wrong with a program. -/
inductive Defect where
  | empty (function : String)
  | unterminated (function block : String)
  | danglingBranch (function block : String)
  | unknownCallee (function callee : String)
  | redefined (function : String) (temp : Nat)
  | returnType (function : String)
  deriving DecidableEq

/-- The report of a defect. -/
def Defect.message : Defect → String
  | .empty function => s!"Function `{function}` has no basic blocks"
  | .unterminated function block => s!"Block `{block}` of `{function}` lacks a terminator"
  | .danglingBranch function block =>
    s!"Block `{block}` of `{function}` branches to a nonexistent block"
  | .unknownCallee function callee =>
    s!"Function `{function}` calls undeclared function `{callee}`"
  | .redefined function temp =>
    s!"Temporary %t{temp} is defined more than once in `{function}`"
  | .returnType function => s!"Function `{function}` returns a value of the wrong type"

namespace Program

/-- Checks one instruction, given the temporaries defined before it, and adds its own. -/
def checkInstr (p : Program) (f : Function) (defined : List Nat) (i : Instr) :
    Except Defect (List Nat) := do
  let defined ← match i.output with
    | none => pure defined
    | some temp =>
      if defined.contains temp then throw (.redefined f.name temp) else pure (temp :: defined)
  match i with
  | .call _ target .. =>
    if (p.function? target).isNone then throw (.unknownCallee f.name target)
    else pure defined
  | _ => pure defined

/-- Checks instructions in a row. -/
def checkInstrs (p : Program) (f : Function) : List Nat → List Instr →
    Except Defect (List Nat)
  | defined, [] => pure defined
  | defined, i :: rest => do p.checkInstrs f (← p.checkInstr f defined i) rest

/-- Checks the end of a block. -/
def checkTerminator (f : Function) (b : Block) : Except Defect Unit :=
  match b.terminator with
  | none => throw (.unterminated f.name b.name)
  | some t =>
    if t.successors.any (f.blocks.size ≤ ·) then throw (.danglingBranch f.name b.name)
    else match t with
      | .ret value =>
        if (value.map Value.ty).getD .void = f.result then pure ()
        else throw (.returnType f.name)
      | _ => pure ()

/-- Checks blocks in a row. -/
def checkBlocks (p : Program) (f : Function) : List Nat → List Block →
    Except Defect (List Nat)
  | defined, [] => pure defined
  | defined, b :: rest => do
    let defined ← p.checkInstrs f defined b.instrs
    checkTerminator f b
    p.checkBlocks f defined rest

/-- Checks one function; a declaration has nothing to check. -/
def checkFunction (p : Program) (defined : List Nat) (f : Function) :
    Except Defect (List Nat) :=
  match f.body with
  | .external => pure defined
  | .blocks blocks =>
    if blocks.isEmpty then throw (.empty f.name) else p.checkBlocks f defined blocks.toList

/-- Checks functions in a row. -/
def checkFunctions (p : Program) : List Nat → List Function → Except Defect (List Nat)
  | defined, [] => pure defined
  | defined, f :: rest => do p.checkFunctions (← p.checkFunction defined f) rest

/-- The first defect of a program, if it has any. -/
def check (p : Program) : Except Defect Unit := do
  discard (p.checkFunctions [] p.functions)

end Program
end Oberon.Code
