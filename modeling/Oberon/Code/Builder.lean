import Oberon.Code.Program

/-!
# Building a function

A builder holds the blocks made so far and a cursor on one of them. It changes by edits;
ending a block that has ended already does nothing, so the first terminator stays.
-/

namespace Oberon.Code

/-- A function under construction. -/
structure Builder where
  name : String
  parameters : List Ty
  result : Ty
  origin : Option String := none
  blocks : Array Block
  /-- The block that takes the next instruction. -/
  cursor : Nat := 0

/-- One change to a function under construction. -/
inductive Edit where
  /-- Adds an empty block and leaves the cursor alone. -/
  | addBlock (name : String)
  /-- Moves the cursor. -/
  | switchTo (label : Nat)
  /-- Adds an instruction to the block at the cursor. -/
  | push (instr : Instr)
  /-- Adds an instruction to the first block, right after the cells reserved there. -/
  | pushEntry (instr : Instr)
  /-- Ends the block at the cursor, unless it has ended. -/
  | terminate (terminator : Terminator)
  deriving DecidableEq

namespace Block

/-- The block with one more instruction. -/
def push (b : Block) (i : Instr) : Block :=
  { b with instrs := b.instrs ++ [i] }

/-- The block with an instruction right after the cells it starts with. -/
def pushCell (b : Block) (i : Instr) : Block :=
  { b with instrs := b.instrs.takeWhile Instr.isAlloca ++ i :: b.instrs.dropWhile Instr.isAlloca }

/-- The block with a terminator, which an earlier one keeps out. -/
def terminate (b : Block) (t : Terminator) : Block :=
  { b with terminator := b.terminator.or (some t) }

end Block

namespace Builder

/-- A function with one empty block, and the cursor on it. -/
def start (name : String) (parameters : List Ty) (result : Ty) (entry : String)
    (origin : Option String) : Builder :=
  { name, parameters, result, origin, blocks := #[{ name := entry }] }

/-- Carries out an edit. -/
def apply (b : Builder) : Edit → Builder
  | .addBlock name => { b with blocks := b.blocks.push { name } }
  | .switchTo label => { b with cursor := label }
  | .push i => { b with blocks := b.blocks.modify b.cursor (·.push i) }
  | .pushEntry i => { b with blocks := b.blocks.modify 0 (·.pushCell i) }
  | .terminate t => { b with blocks := b.blocks.modify b.cursor (·.terminate t) }

/-- Carries out edits in order. -/
def run (b : Builder) (script : Array Edit) : Builder :=
  script.foldl apply b

/-- The label that the next block will have. -/
def nextLabel (b : Builder) : Nat :=
  b.blocks.size

/-- Whether the block at the cursor can still be ended. -/
def isOpen (b : Builder) : Bool :=
  (b.blocks[b.cursor]?.map (·.terminator.isNone)).getD false

/-- The blocks without a terminator. -/
def unterminated (b : Builder) : List Nat :=
  (List.range b.blocks.size).filter fun label =>
    (b.blocks[label]?.map (·.terminator.isNone)).getD false

/-- Ends every open block with the same terminator. -/
def closeAll (b : Builder) (t : Terminator) : Builder :=
  { b with blocks := b.blocks.map (·.terminate t) }

/-- The finished function. -/
def finish (b : Builder) : Function :=
  { name := b.name, parameters := b.parameters, result := b.result, body := .blocks b.blocks,
    origin := b.origin }

end Builder
end Oberon.Code
