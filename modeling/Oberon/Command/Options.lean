import Oberon.Bundled

/-!
# Command-line arguments

`-t PLATFORM`, `-o FILE`, `-c`, `--check`, `--run` and the name of a bundled program, in any
order. An option takes its value from the rest of its own word or from the next word, which
must not look like an option; a lone dash does not. Flags of one letter can share a word.
After `--` no word is an option. Nothing may be given twice.
-/

namespace Oberon.Command

/-- What the arguments ask for. -/
structure Options where
  target : String := "native"
  output : String := "-"
  comments : Bool := false
  check : Bool := false
  run : Bool := false
  program : String

/-- What a command line asks for. -/
inductive Request where
  | compile (options : Options)
  | help
  | version

/-- An option that takes a value. -/
inductive Valued where
  | target
  | output

/-- A flag. -/
inductive Flag where
  | comments
  | check
  | run

/-- What was given so far. -/
structure Given where
  target : Option String := none
  output : Option String := none
  comments : Bool := false
  check : Bool := false
  run : Bool := false
  program : Option String := none

namespace Given

/-- Records the value of an option, unless it has one. -/
def setValue? (g : Given) (value : String) : Valued → Option Given
  | .target => if g.target.isSome then none else some { g with target := some value }
  | .output => if g.output.isSome then none else some { g with output := some value }

/-- Records a flag, unless it was given. -/
def setFlag? (g : Given) : Flag → Option Given
  | .comments => if g.comments then none else some { g with comments := true }
  | .check => if g.check then none else some { g with check := true }
  | .run => if g.run then none else some { g with run := true }

/-- Records the name of a program, unless one was given or there is none of that name. -/
def setProgram? (g : Given) (name : String) : Option Given :=
  if g.program.isSome || (Bundled.find? name).isNone then none
  else some { g with program := some name }

/-- The options, if they go together: a program is needed, and `--run` excludes `--check`. -/
def options? (g : Given) : Option Options :=
  if g.run && g.check then none
  else g.program.map fun program =>
    { target := g.target.getD "native", output := g.output.getD "-", comments := g.comments,
      check := g.check, run := g.run, program }

end Given

/-- What a word, or a letter of one, means. -/
inductive Meaning where
  | valued (option : Valued)
  | flag (flag : Flag)
  | help
  | version

/-- The meaning of a long option, without its dashes. -/
def longMeaning? : String → Option Meaning
  | "target" => some (.valued .target)
  | "output" => some (.valued .output)
  | "comments" => some (.flag .comments)
  | "check" => some (.flag .check)
  | "run" => some (.flag .run)
  | "help" => some .help
  | "version" => some .version
  | _ => none

/-- The meaning of a letter. -/
def shortMeaning? : Char → Option Meaning
  | 't' => some (.valued .target)
  | 'o' => some (.valued .output)
  | 'c' => some (.flag .comments)
  | 'h' => some .help
  | 'V' => some .version
  | _ => none

/-- What has been read of the arguments: all of a word, or an option that waits for its
value, or a request that ends the reading. -/
inductive Reading where
  | given (g : Given)
  | waiting (g : Given) (option : Valued)
  | done (request : Request)

/-- Reads the letters of a word after its dash. The first option that takes a value takes
what is left of the word, less an equals sign, if anything is left. -/
def readLetters (g : Given) : List Char → Option Reading
  | [] => some (.given g)
  | c :: rest =>
    match shortMeaning? c with
    | none => none
    | some .help => some (.done .help)
    | some .version => some (.done .version)
    | some (.flag flag) => (g.setFlag? flag).bind fun g => readLetters g rest
    | some (.valued option) =>
      match rest with
      | [] => some (.waiting g option)
      | '=' :: value => (g.setValue? (String.ofList value) option).map .given
      | value => (g.setValue? (String.ofList value) option).map .given

/-- Reads a long option after its dashes, with what follows an equals sign, if there is one. -/
def readLong (g : Given) (name : String) (value : Option String) : Option Reading :=
  match longMeaning? name, value with
  | none, _ => none
  | some (.valued option), none => some (.waiting g option)
  | some (.valued option), some value => (g.setValue? value option).map .given
  | some (.flag flag), none => (g.setFlag? flag).map .given
  | some .help, none => some (.done .help)
  | some .version, none => some (.done .version)
  | some _, some _ => none

/-- Splits a word at its first equals sign. -/
def splitEquals (word : List Char) : String × Option String :=
  let name := word.takeWhile (· ≠ '=')
  match word.dropWhile (· ≠ '=') with
  | _ :: value => (String.ofList name, some (String.ofList value))
  | [] => (String.ofList name, none)

/-- Reads a word that is no value. -/
def readWord (g : Given) (word : String) : Option Reading :=
  match word.toList with
  | '-' :: '-' :: rest =>
    let (name, value) := splitEquals rest
    readLong g name value
  | '-' :: c :: rest => readLetters g (c :: rest)
  | _ => (g.setProgram? word).map .given

/-- Whether a word looks like an option. -/
def isOption (word : String) : Bool :=
  match word.toList with
  | '-' :: _ :: _ => true
  | _ => false

/-- Reads words, the first of which is the value of `waiting`, if that is given. -/
def readWords (g : Given) (waiting : Option Valued) : List String → Option Request
  | [] => if waiting.isSome then none else g.options?.map .compile
  | word :: rest =>
    match waiting with
    | some option =>
      if isOption word then none
      else (g.setValue? word option).bind fun g => readWords g none rest
    | none =>
      if word = "--" then
        (rest.foldlM Given.setProgram? g).bind fun g => g.options?.map .compile
      else
        match readWord g word with
        | none => none
        | some (.done request) => some request
        | some (.given g) => readWords g none rest
        | some (.waiting g option) => readWords g (some option) rest

/-- What the arguments ask for, if they make sense. -/
def parse? (arguments : List String) : Option Request :=
  readWords {} none arguments

end Oberon.Command
