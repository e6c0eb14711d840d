import Oberon.Machine.State

/-!
# Steps of the machine

One step runs one instruction or one terminator. A call to a function with blocks suspends
the frame, and a return resumes it; memory reserved by the call is given back.
-/

namespace Oberon.Machine

open Code

/-- What a step leads to. -/
inductive Progress where
  | running (state : State)
  /-- The first function has returned. -/
  | halted (result : Option Scalar) (world : World)

namespace Image

/-- Converts a scalar. -/
def cast (image : Image) (f : Frame) (op : CastOp) (operand : Value) (into : Ty) :
    Except Fault Scalar :=
  match op with
  | .sext => do
    let value ← image.int f operand
    pure (.int value)
  | .trunc => do
    let value ← image.int f operand
    pure (.int (Word.wrap (widthOf into) value))
  | .sitofp => do
    let value ← image.int f operand
    pure (.real (.ofInt64 value))
  | .fptosi => do
    let value ← image.real f operand
    pure (.int (Word.wrap (widthOf into) value.toInt64))

/-- Calls a function. One that the machine provides is done at once; any other gets a frame,
unless too many calls are under way. -/
def call (image : Image) (s : State) (out : Option Nat) (target : String)
    (arguments : List Value) : Except Fault State :=
  match image.program.function? target with
  | none => .error (.unknownFunction target)
  | some function => do
    let arguments ← image.values s.frame arguments
    match function.body with
    | .external =>
      let (result, world) ← primitive s.world function.name arguments
      pure { s with world, frame := s.frame.set? out result }
    | .blocks blocks =>
      if maxDepth ≤ s.callers.length + 1 then throw (.stackOverflow maxDepth)
      let frame ← Frame.enter function.name blocks arguments s.world.memory.size out
      pure { s with frame, callers := s.frame :: s.callers }

/-- Runs an instruction. -/
def execute (image : Image) (s : State) : Instr → Except Fault State
  | .alloca out ty => do
    let (address, memory) ← s.world.memory.allocate ty
    pure { s with
      world := { s.world with memory }
      frame := s.frame.set out (.ofAddress address) }
  | .load out ty address => do
    let address ← image.int s.frame address
    let value ← s.world.memory.read ty (addressOf address)
    pure { s with frame := s.frame.set out value }
  | .store value address => do
    let address ← image.int s.frame address
    let scalar ← image.value s.frame value
    let memory ← s.world.memory.write value.ty (addressOf address) scalar
    pure { s with world := { s.world with memory } }
  | .binary out op lhs rhs => do
    let a ← image.value s.frame lhs
    let b ← image.value s.frame rhs
    let value ← binary op (widthOf lhs.ty) a b
    pure { s with frame := s.frame.set out value }
  | .fneg out value => do
    let value ← image.real s.frame value
    pure { s with frame := s.frame.set out (.real value.neg) }
  | .icmp out predicate lhs rhs => do
    let a ← image.int s.frame lhs
    let b ← image.int s.frame rhs
    pure { s with frame := s.frame.set out (.ofBool (intHolds predicate a b)) }
  | .fcmp out predicate lhs rhs => do
    let a ← image.real s.frame lhs
    let b ← image.real s.frame rhs
    pure { s with frame := s.frame.set out (.ofBool (realHolds predicate a b)) }
  | .cast out op value into => do
    let value ← image.cast s.frame op value into
    pure { s with frame := s.frame.set out value }
  | .element out ty address indices => do
    let base ← image.int s.frame address
    let indices ← image.ints s.frame indices
    let place ← elementAddress ty base indices
    pure { s with frame := s.frame.set out (.int place) }
  | .call out target _ arguments => image.call s out target arguments
  | .copy destination source bytes => do
    let destination ← image.int s.frame destination
    let source ← image.int s.frame source
    let memory ← s.world.memory.copy (addressOf destination) (addressOf source) bytes
    pure { s with world := { s.world with memory } }

/-- Returns from the current call. -/
def leave (s : State) (value : Option Scalar) : Except Fault Progress :=
  let world := { s.world with memory := s.world.memory.truncate s.frame.base }
  match s.callers with
  | [] => .ok (.halted value world)
  | caller :: callers =>
    match s.frame.out, value with
    | none, _ => .ok (.running { world, frame := caller, callers })
    | some out, some value => .ok (.running { world, frame := caller.set out value, callers })
    | some _, none => .error (.malformed ("`" ++ s.frame.function ++ "` returned no value"))

/-- Runs the terminator of the current block. -/
def terminate (image : Image) (s : State) : Except Fault Progress :=
  match s.frame.block.terminator with
  | none => .error (.malformed ("block `" ++ s.frame.block.name ++ "` has no terminator"))
  | some (.jump target) => do
    let frame ← s.frame.jump target
    pure (.running { s with frame })
  | some (.branch condition onTrue onFalse) => do
    let condition ← image.int s.frame condition
    let frame ← s.frame.jump (if condition = 0 then onFalse else onTrue)
    pure (.running { s with frame })
  | some (.ret none) => leave s none
  | some (.ret (some value)) => do
    let value ← image.value s.frame value
    leave s (some value)

/-- Takes one step. -/
def step (image : Image) (s : State) : Except Fault Progress :=
  match s.frame.rest with
  | [] => image.terminate s
  | i :: rest => do
    let s ← image.execute { s with frame := { s.frame with rest } } i
    pure (.running s)

end Image
end Oberon.Machine
