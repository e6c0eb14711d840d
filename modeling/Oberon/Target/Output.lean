import Oberon.Code.Assembly
import Oberon.Code.Defect

/-!
# Writing programs out

A program is written as assembly text, after a check if one is asked for. What the text is
written to may be too small for it.
-/

namespace Oberon

/-- How a program is written out. -/
structure OutputOptions where
  /-- Check the program before. -/
  verify : Bool := false
  /-- Add comments. -/
  comments : Bool := false

/-- Why a program could not be written out. -/
inductive OutputError where
  /-- Writing failed. -/
  | io
  | malformed (defect : Code.Defect)
  deriving DecidableEq

namespace OutputError

/-- The report of a failure. -/
def message : OutputError → String
  | .io => "I/O error"
  | .malformed _ => "Generated module is malformed"

/-- What caused a failure, as far as it is known. -/
def causes : OutputError → List String
  | .io => []
  | .malformed defect => [defect.message]

end OutputError

/-- The text of a program, for a medium that takes at most `capacity` bytes, if it has a
limit. -/
def Code.Program.output (p : Code.Program) (options : OutputOptions) (capacity : Option Nat) :
    Except OutputError String := do
  if options.verify then
    match p.check with
    | .ok _ => pure ()
    | .error defect => throw (.malformed defect)
  let text := p.text options.comments
  match capacity with
  | none => pure text
  | some capacity => if text.utf8ByteSize ≤ capacity then pure text else throw .io

end Oberon
