import Oberon.Command.Session

/-!
# The program

Reads arguments and input, and carries out what the command decides.
-/

namespace Oberon

/-- How the command is used. -/
def usage : String :=
  "usage: oberon0c [-t PLATFORM] [-o FILE] [-c] [--check | --run] SAMPLE\n"

/-- The system's report of a failure, with its number if it has one. -/
def systemText : IO.Error → String
  | .noFileOrDirectory _ code details | .permissionDenied _ code details
  | .inappropriateType _ code details | .invalidArgument _ code details
  | .resourceExhausted _ code details => details ++ " (os error " ++ toString code ++ ")"
  | e => e.toString

/-- Prints what an outcome says, and gives its status. -/
def report (outcome : Command.Outcome) : IO UInt32 := do
  IO.print outcome.stdout
  IO.eprint outcome.stderr
  pure outcome.status.toUInt32

/-- Does what the options ask for. The standard input is read only to run a program on it. -/
def carryOut (options : Command.Options) : IO UInt32 := do
  match Command.execute options with
  | .finish outcome => report outcome
  | .interpret program => do
    let input ← (← IO.getStdin).readToEnd
    report (Command.run program input)
  | .save path text => do
    match ← (IO.FS.Handle.mk path .write).toBaseIO with
    | .error e => report (Command.openFailure path (systemText e))
    | .ok file =>
      match ← (do file.putStr text; file.flush).toBaseIO with
      | .error e => report (Command.writeFailure path (systemText e))
      | .ok _ => pure 0

end Oberon

/-- The command line. -/
def main (arguments : List String) : IO UInt32 := do
  match Oberon.Command.parse? arguments with
  | none => do
    IO.eprint Oberon.usage
    pure 2
  | some .help => do
    IO.print Oberon.usage
    pure 0
  | some .version => do
    IO.println "Oberon-0 compiler 1.0.0"
    pure 0
  | some (.compile options) => Oberon.carryOut options
