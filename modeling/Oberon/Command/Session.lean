import Oberon.Command.Options
import Oberon.Generate.Module
import Oberon.Machine.Run
import Oberon.Report.Diagnostics
import Oberon.Target.Output

/-!
# The command

What the command does with its options: it compiles a bundled program, and checks, runs or
writes the result.
-/

namespace Oberon.Command

/-- How the command ends. -/
structure Outcome where
  status : Nat := 0
  stdout : String := ""
  stderr : String := ""

/-- What the command does in the end. -/
inductive Plan where
  | finish (outcome : Outcome)
  /-- Reads the input and runs a program on it. -/
  | interpret (program : Code.Program)
  /-- Opens a file and writes a text to it. -/
  | save (path text : String)

/-- Causes below each other, numbered if there are several. -/
def causeLines (causes : List String) : List String :=
  match causes with
  | [] => []
  | [cause] => ["", "Caused by:", "    " ++ cause]
  | _ => ["", "Caused by:"]
    ++ causes.mapIdx fun number cause => "    " ++ toString number ++ ": " ++ cause

/-- Ends the command with a message about a failure. -/
def failure (message : String) (causes : List String) : Outcome where
  status := 1
  stderr := String.join ((("Error: " ++ message) :: causeLines causes).map (· ++ "\n"))

/-- Ends the command because a file could not be opened. -/
def openFailure (path reason : String) : Outcome :=
  failure ("Failed to open for writing: " ++ path) [reason]

/-- Ends the command because a file, once opened, could not be written. -/
def writeFailure (path reason : String) : Outcome :=
  failure ("Failed to emit to file: " ++ path) [OutputError.io.message, reason]

/-- Checks a program and says nothing if it is well formed. -/
def check (p : Code.Program) : Outcome :=
  match p.check with
  | .ok _ => {}
  | .error defect => failure "Generated module is malformed" [defect.message]

/-- Runs a program; the command ends with its exit status, of which eight bits are left. -/
def run (p : Code.Program) (input : String) : Outcome :=
  match Machine.run p input Machine.defaultFuel with
  | .ok execution =>
    { status := execution.status.toUInt32.toNat % 256, stdout := execution.output }
  | .error fault => failure "Execution failed" [fault.message]

/-- Writes a program out. -/
def write (p : Code.Program) (options : Options) : Plan :=
  let result := p.output { verify := true, comments := options.comments } none
  if options.output = "-" then
    match result with
    | .ok text => .finish { stdout := text }
    | .error e => .finish (failure "Failed to emit to stdout" (e.message :: e.causes))
  else
    match result with
    | .ok text => .save options.output text
    | .error e =>
      .finish (failure ("Failed to emit to file: " ++ options.output) (e.message :: e.causes))

/-- Compiles a bundled program and does with it what the options say. -/
def execute (options : Options) : Plan :=
  match Platform.ofText? options.target with
  | none => .finish (failure ("Unknown target platform: " ++ options.target) [])
  | some platform =>
    match Bundled.find? options.program with
    | none => .finish (failure ("No such sample: " ++ options.program) [])
    | some source =>
      match source.compile platform with
      | .error e =>
        let problem : Located Problem := { value := { message := e.value.message }, unit := e.unit }
        .finish { status := 1, stderr := Diagnostics.text { problems := [problem] } }
      | .ok p =>
        if options.check then .finish (check p)
        else if options.run then
          if options.output = "-" then .interpret p
          else
            .finish (failure
              "Refusing to write program output to a file, use a shell redirection" [])
        else write p options

end Oberon.Command
