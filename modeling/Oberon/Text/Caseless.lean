/-!
# Comparing without case

Two texts agree without regard to case if their Unicode case foldings are equal. One of the
two is ASCII wherever this library compares, so only the characters whose folding is ASCII
need a rule: any other character keeps a folding that no ASCII text has.
-/

namespace Oberon.Text

/-- The full case folding of a character where that is ASCII, and the character itself where
it is not. -/
def fold (c : Char) : List Char :=
  match c.toNat with
  | 0x17F => ['s']
  | 0x212A => ['k']
  | 0xDF | 0x1E9E => ['s', 's']
  | 0xFB00 => ['f', 'f']
  | 0xFB01 => ['f', 'i']
  | 0xFB02 => ['f', 'l']
  | 0xFB03 => ['f', 'f', 'i']
  | 0xFB04 => ['f', 'f', 'l']
  | 0xFB05 | 0xFB06 => ['s', 't']
  | _ => [c.toLower]

/-- Whether a text agrees with an ASCII name without regard to case. -/
def agreesCaseless (name text : String) : Bool :=
  name.toList.flatMap fold == text.toList.flatMap fold

end Oberon.Text
