import Oberon.Number.Double

/-!
# Decimal text of floating-point numbers

A finite double is exactly `significand * 2 ^ exponent`, so both directions are exact integer
arithmetic followed by one rounding, in which a tie goes to the even neighbour.
-/

namespace Oberon.Decimal

/-- The integer nearest to `n / d`, a tie going to the even one. -/
def roundDiv (n d : Nat) : Nat :=
  let q := n / d
  let twice := 2 * (n % d)
  if twice < d then q
  else if d < twice then q + 1
  else if q % 2 = 0 then q
  else q + 1

/-- `significand * 2 ^ exponent` for a finite number without its sign. -/
def decode (x : Double) : Nat × Int :=
  let magnitude := x.abs.bits.toNat
  let fraction := magnitude % (1 <<< 52)
  match magnitude >>> 52 with
  | 0 => (fraction, -1074)
  | biased + 1 => ((1 <<< 52) + fraction, (biased : Int) - 1074)

/-- `digits` with zeros in front, up to the given width. -/
def padLeft (width : Nat) (digits : String) : String :=
  String.ofList (List.replicate (width - digits.length) '0') ++ digits

/-- The number `significand * 2 ^ exponent` in units of `10 ^ -places`, rounded. -/
def scaled (places significand : Nat) (exponent : Int) : Nat :=
  match exponent with
  | .ofNat e => (significand <<< e) * Nat.pow 10 places
  | .negSucc e => roundDiv (significand * Nat.pow 10 places) (1 <<< (e + 1))

/-- The number with a fixed count of places. A negative number keeps its sign even where it
rounds to zero. -/
def toFixed (places : Nat) (x : Double) : String :=
  if x.isNaN then "NaN"
  else
    let sign := if x.isNegative then "-" else ""
    if x.abs.bits = Double.infinityBits then sign ++ "inf"
    else
      let (significand, exponent) := decode x
      let units := scaled places significand exponent
      sign ++ toString (units / Nat.pow 10 places) ++ "."
        ++ padLeft places (toString (units % Nat.pow 10 places))

/-- The bits of the double nearest to `n / d`, which is not negative. Numbers too large for
the format become infinite. -/
def nearestBits (n d : Nat) : UInt64 :=
  if n = 0 then 0
  else
    -- `2 ^ 52 ≤ n / (d * 2 ^ k) < 2 ^ 54`, then one step brings it under `2 ^ 53`
    let rough : Int := (n.log2 : Int) - d.log2 - 53
    let fits (k : Int) : Bool := n <<< (-k).toNat < d <<< (k.toNat + 53)
    let k := max (if fits rough then rough else rough + 1) (-1074)
    let q := roundDiv (n <<< (-k).toNat) (d <<< k.toNat)
    let bits := ((k + 1074).toNat <<< 52) + q
    if Double.infinityBits.toNat ≤ bits then Double.infinityBits else bits.toUInt64

/-- The bits of the double nearest to `digits * 10 ^ exponent`. Exponents far outside the
range of doubles are settled without building the power. -/
def scientificBits (digits : Nat) (exponent : Int) : UInt64 :=
  let size : Int := (toString digits).length
  if digits = 0 then 0
  else if 310 < exponent + size then Double.infinityBits
  else if exponent + size < -330 then 0
  else nearestBits (digits * Nat.pow 10 exponent.toNat) (Nat.pow 10 (-exponent).toNat)

/-- The number a list of decimal digits denotes. -/
def ofDigits (digits : List Char) : Nat :=
  digits.foldl (fun n c => 10 * n + (c.toNat - '0'.toNat)) 0

/-- The exponent after its mark: an optional sign and at least one digit. -/
def exponent? : List Char → Option Int
  | '-' :: digits => (unsigned? digits).map fun n => -(n : Int)
  | '+' :: digits => (unsigned? digits).map Int.ofNat
  | digits => (unsigned? digits).map Int.ofNat
where
  /-- A non-empty list of digits. -/
  unsigned? (digits : List Char) : Option Nat :=
    if digits.isEmpty || digits.any (!·.isDigit) then none else some (ofDigits digits)

/-- The bits of an unsigned decimal number: digits around an optional point, at least one of
them, and an optional exponent. -/
def unsignedBits? (text : List Char) : Option UInt64 :=
  let whole := text.takeWhile (·.isDigit)
  let afterWhole := text.dropWhile (·.isDigit)
  let (fraction, rest) := match afterWhole with
    | '.' :: tail => (tail.takeWhile (·.isDigit), tail.dropWhile (·.isDigit))
    | _ => ([], afterWhole)
  let bits (exponent : Int) :=
    scientificBits (ofDigits (whole ++ fraction)) (exponent - fraction.length)
  if whole.isEmpty && fraction.isEmpty then none
  else match rest with
    | [] => some (bits 0)
    | mark :: tail =>
      if mark = 'e' || mark = 'E' then (exponent? tail).map bits else none

/-- The bits of a number that has a name, in any case. -/
def namedBits? (text : List Char) : Option UInt64 :=
  match String.ofList (text.map Char.toLower) with
  | "nan" => some 0x7FF8000000000000
  | "inf" | "infinity" => some Double.infinityBits
  | _ => none

/-- Reads a number: an optional sign before a decimal number, `inf`, `infinity` or `nan`. -/
def ofText? (text : String) : Option Double :=
  let magnitude? (rest : List Char) : Option Double :=
    ((unsignedBits? rest).or (namedBits? rest)).map Double.mk
  match text.toList with
  | '-' :: rest => (magnitude? rest).map Double.neg
  | '+' :: rest => magnitude? rest
  | rest => magnitude? rest

end Oberon.Decimal
