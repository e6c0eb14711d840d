import Oberon.Code.Reachable

/-!
# Assembly text

The written form of a program: a header, the globals and strings, then every function with
an empty line before it. With comments on, a function names the procedure it comes from, and
blocks that cannot be reached say so.
-/

namespace Oberon.Code

/-- The function that copies blocks of bytes. -/
def copyName : String := "llvm.memcpy.p0.p0.i64"

/-- How an operation is written. -/
def BinOp.text : BinOp → String
  | .add => "add"
  | .sub => "sub"
  | .mul => "mul"
  | .sdiv => "sdiv"
  | .srem => "srem"
  | .and => "and"
  | .or => "or"
  | .xor => "xor"
  | .fadd => "fadd"
  | .fsub => "fsub"
  | .fmul => "fmul"
  | .fdiv => "fdiv"

/-- How a comparison of integers is written. -/
def IntPredicate.text : IntPredicate → String
  | .eq => "eq"
  | .ne => "ne"
  | .slt => "slt"
  | .sle => "sle"
  | .sgt => "sgt"
  | .sge => "sge"

/-- How a comparison of doubles is written. -/
def RealPredicate.text : RealPredicate → String
  | .oeq => "oeq"
  | .one => "one"
  | .olt => "olt"
  | .ole => "ole"
  | .ogt => "ogt"
  | .oge => "oge"

/-- How a conversion is written. -/
def CastOp.text : CastOp → String
  | .sext => "sext"
  | .trunc => "trunc"
  | .sitofp => "sitofp"
  | .fptosi => "fptosi"

/-- A byte inside a string constant: printable ASCII stands for itself, the quote and the
backslash apart, and any other byte is a backslash and two digits. -/
def escapeByte (b : UInt8) : List Char :=
  if b = 0x22 || b = 0x5C || b < 0x20 || 0x7E < b then
    Char.ofNat 0x5C :: Text.hexDigits 2 b.toNat
  else [Char.ofNat b.toNat]

/-- The bytes of a string constant as they are written. -/
def escape (bytes : List UInt8) : List Char :=
  bytes.flatMap escapeByte

/-- Texts with a comma and a space between them. -/
def commaSeparated (texts : List String) : String :=
  String.intercalate ", " texts

namespace Function

/-- The parameter types, with an ellipsis if more arguments may follow. -/
def signatureText (f : Function) : String :=
  commaSeparated (f.parameters.map Ty.text ++ if f.variadic then ["..."] else [])

/-- The parameter types, each with its name. -/
def parametersText (f : Function) : String :=
  commaSeparated (f.parameters.mapIdx fun index ty => ty.text ++ " %arg" ++ toString index)

/-- The name of a block, for a jump to it. -/
def labelText (f : Function) (label : Nat) : String :=
  (f.blocks[label]?.map (·.name)).getD "<invalid>"

/-- A terminator, without indentation. -/
def terminatorText (f : Function) : Terminator → String
  | .jump target => "br label %" ++ f.labelText target
  | .branch condition onTrue onFalse =>
    "br " ++ condition.typedText ++ ", label %" ++ f.labelText onTrue ++ ", label %"
      ++ f.labelText onFalse
  | .ret none => "ret void"
  | .ret (some value) => "ret " ++ value.typedText

end Function

namespace Program

/-- The parameter types of a variadic function, which calls to it repeat. -/
def variadicText (p : Program) (target : String) : String :=
  match p.function? target with
  | some f => if f.variadic then "(" ++ f.signatureText ++ ") " else ""
  | none => ""

/-- An instruction, without indentation. -/
def instrText (p : Program) : Instr → String
  | .alloca out ty => Value.tempText out ++ " = alloca " ++ ty.text
  | .load out ty address =>
    Value.tempText out ++ " = load " ++ ty.text ++ ", ptr " ++ address.text
  | .store value address => "store " ++ value.typedText ++ ", ptr " ++ address.text
  | .binary out op lhs rhs =>
    Value.tempText out ++ " = " ++ op.text ++ " " ++ lhs.typedText ++ ", " ++ rhs.text
  | .fneg out value => Value.tempText out ++ " = fneg " ++ value.typedText
  | .icmp out predicate lhs rhs =>
    Value.tempText out ++ " = icmp " ++ predicate.text ++ " " ++ lhs.typedText ++ ", "
      ++ rhs.text
  | .fcmp out predicate lhs rhs =>
    Value.tempText out ++ " = fcmp " ++ predicate.text ++ " " ++ lhs.typedText ++ ", "
      ++ rhs.text
  | .cast out op value into =>
    Value.tempText out ++ " = " ++ op.text ++ " " ++ value.typedText ++ " to " ++ into.text
  | .element out base address indices =>
    Value.tempText out ++ " = getelementptr inbounds "
      ++ commaSeparated (base.text :: ("ptr " ++ address.text) :: indices.map Value.typedText)
  | .call out target result arguments =>
    (match out with
      | some index => Value.tempText index ++ " = "
      | none => "")
      ++ "call " ++ result.text ++ " " ++ p.variadicText target ++ "@" ++ target ++ "("
      ++ commaSeparated (arguments.map Value.typedText) ++ ")"
  | .copy destination source bytes =>
    "call void @" ++ copyName ++ "(ptr " ++ destination.text ++ ", ptr " ++ source.text
      ++ ", i64 " ++ toString bytes ++ ", i1 false)"

/-- The lines of a block: its name, then its instructions and terminator, indented. -/
def blockLines (p : Program) (f : Function) (b : Block) : List String :=
  (b.name ++ ":") :: (b.instrs.map fun i => "  " ++ p.instrText i)
    ++ ["  " ++ (match b.terminator with
      | some t => f.terminatorText t
      | none => "; missing terminator")]

/-- The lines of a function: a declaration, or a definition with an empty line between
blocks. -/
def functionLines (p : Program) (comments : Bool) (f : Function) : List String :=
  match f.body with
  | .external =>
    ["declare " ++ f.result.text ++ " @" ++ f.name ++ "(" ++ f.signatureText ++ ")"]
  | .blocks blocks =>
    let origin := match f.origin with
      | some origin => if comments then ["; PROCEDURE " ++ origin] else []
      | none => []
    let reachable := f.reachable
    let body := (blocks.toList.mapIdx fun label b =>
      (if 0 < label then [""] else [])
        ++ (if comments && reachable[label]? != some true then ["; unreachable"] else [])
        ++ p.blockLines f b).flatten
    origin
      ++ ["define " ++ f.result.text ++ " @" ++ f.name ++ "(" ++ f.parametersText ++ ") \x7b"]
      ++ body ++ ["\x7d"]

/-- A global variable. -/
def globalLine (g : Global) : String :=
  "@" ++ g.name ++ " = global " ++ g.ty.text ++ " zeroinitializer"

/-- A string constant, the zero byte at its end included. -/
def stringLine (s : StringConstant) : String :=
  "@" ++ s.name ++ " = private unnamed_addr constant [" ++ toString (s.bytes.length + 1)
    ++ " x i8] c\"" ++ String.ofList (escape s.bytes) ++ "\\00\""

/-- The lines of a program. -/
def lines (p : Program) (comments : Bool) : List String :=
  ["; ModuleID = '" ++ p.name ++ "'",
    "source_filename = \"" ++ p.name ++ "\"",
    "target triple = \"" ++ p.target ++ "\""]
    ++ (if p.globals.isEmpty && p.strings.isEmpty then [] else [""])
    ++ p.globals.map globalLine
    ++ p.strings.map stringLine
    ++ p.functions.flatMap (fun f => "" :: p.functionLines comments f)
    ++ (if p.usesCopy then ["", "declare void @" ++ copyName ++ "(ptr, ptr, i64, i1)"] else [])

/-- The written form of a program, every line ended. -/
def text (p : Program) (comments : Bool) : String :=
  String.join ((p.lines comments).map (· ++ "\n"))

end Program
end Oberon.Code
