import Oberon.Code.Program
import Oberon.Machine.Memory
import Oberon.Number.Decimal
import Oberon.Text.Utf8

/-!
# Printing and reading

The functions that the machine provides: formatted printing, formatted reading, and printing
a line. A conversion is a percent sign, any number of the letter l, and a letter. The input
is a list of words, of which every reading conversion takes one.
-/

namespace Oberon.Machine

open Code

/-- All of a machine but the calls under way. -/
structure World where
  memory : Memory
  /-- The words not yet read. -/
  input : List String
  output : ByteArray := .empty

/-- The byte of a percent sign. -/
def percent : UInt8 := 0x25

/-- The byte of the letter l. -/
def letterL : UInt8 := 0x6C

/-- The byte of the letter d. -/
def letterD : UInt8 := 0x64

/-- The byte of the letter f. -/
def letterF : UInt8 := 0x66

/-- The byte of the letter s. -/
def letterS : UInt8 := 0x73

/-- REALs are printed with six places. -/
def places : Nat := 6

/-- The text of an argument under a conversion. -/
def convert (m : Memory) (conversion : UInt8) : Option Scalar → Except Fault String
  | some (.int value) =>
    if conversion = letterD then .ok (toString value.toInt)
    else if conversion = letterS then do
      let bytes ← m.string (addressOf value)
      pure (Text.decode bytes)
    else .error (.malformed "printf argument does not match its format")
  | some (.real value) =>
    if conversion = letterF then .ok (Decimal.toFixed places value)
    else .error (.malformed "printf argument does not match its format")
  | none => .error (.malformed "printf argument does not match its format")

/-- What a format prints after `printed`. `pending` tells whether a percent sign was read and
its letter not yet; a format that ends there prints nothing for it. -/
def format (m : Memory) (printed : ByteArray) (pending : Bool) :
    List UInt8 → List Scalar → Except Fault ByteArray
  | [], _ => .ok printed
  | b :: rest, arguments =>
    if !pending then
      if b = percent then format m printed true rest arguments
      else format m (printed.push b) false rest arguments
    else if b = letterL then format m printed true rest arguments
    else if b = percent then format m (printed.push percent) false rest arguments
    else do
      let text ← convert m b arguments.head?
      format m (printed ++ text.toUTF8) false rest arguments.tail

/-- What a word means under a conversion. -/
def parse? (conversion : Option UInt8) (word : String) : Option (Ty × Scalar) :=
  if conversion = some letterD then (Word.ofText? word).map fun v => (.integer, .int v)
  else if conversion = some letterF then (Decimal.ofText? word).map fun v => (.real, .real v)
  else none

/-- What one reading conversion does. -/
inductive Reading where
  /-- Reading ends, with the given result. -/
  | stop (result : Int64) (world : World)
  /-- A value was stored. -/
  | stored (world : World)

/-- Carries out one reading conversion, when `assigned` values have been stored before. The
destination comes first; then a word is taken; a word of the wrong form ends the reading. -/
def readOne (w : World) (assigned : Nat) (conversion : Option UInt8) :
    Option Scalar → Except Fault Reading
  | some (.int address) =>
    match w.input with
    | [] => .ok (.stop (if assigned = 0 then -1 else Int64.ofNat assigned) w)
    | word :: input =>
      match parse? conversion word with
      | none => .ok (.stop (Int64.ofNat assigned) { w with input })
      | some (ty, value) => do
        let memory ← w.memory.write ty (addressOf address) value
        pure (.stored { w with memory, input })
  | _ => .error (.malformed "scanf expects a destination address")

/-- Reads by a format, and counts the values stored; the end of the input before the first
one counts as -1. `pending` tells whether a percent sign was read and its letter not yet. -/
def readFormat (w : World) (assigned : Nat) (pending : Bool) :
    List UInt8 → List Scalar → Except Fault (Int64 × World)
  | [], arguments =>
    if pending then do
      match ← readOne w assigned none arguments.head? with
      | .stop result w => pure (result, w)
      | .stored w => pure (Int64.ofNat (assigned + 1), w)
    else .ok (Int64.ofNat assigned, w)
  | b :: rest, arguments =>
    if !pending then readFormat w assigned (b = percent) rest arguments
    else if b = letterL then readFormat w assigned true rest arguments
    else do
      match ← readOne w assigned (some b) arguments.head? with
      | .stop result w => pure (result, w)
      | .stored w => readFormat w (assigned + 1) false rest arguments.tail

/-- Calls a function that the machine provides. All of them take a string first. -/
def primitive (w : World) (name : String) (arguments : List Scalar) :
    Except Fault (Scalar × World) :=
  match arguments with
  | .int address :: rest => do
    let text ← w.memory.string (addressOf address)
    if name = printfName then
      let printed ← format w.memory .empty false text rest
      pure (.int (Int64.ofNat printed.size), { w with output := w.output ++ printed })
    else if name = scanfName then
      let (result, w) ← readFormat w 0 false text rest
      pure (.int result, w)
    else if name = putsName then
      let line := text.foldl ByteArray.push w.output
      pure (.int 1, { w with output := line.push 0x0A })
    else .error (.unknownFunction name)
  | _ => .error (.malformed s!"`{name}` expects a string argument")

end Oberon.Machine
