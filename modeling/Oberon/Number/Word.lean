/-!
# Integers of a given width

Every integer of a running program is kept in 64 bits, sign-extended from the width of its
type. `wrap` restores that form after an operation. Compile-time arithmetic does not wrap:
there, a result outside the 64-bit range is no result.
-/

namespace Oberon.Word

/-- The low `bits` bits of `v`, read as a two's complement number. A width of zero, or of 64
and more, leaves `v` as it is. -/
def wrap (bits : Nat) (v : Int64) : Int64 :=
  if bits = 0 ∨ 64 ≤ bits then v
  else
    let shift := Int64.ofNat (64 - bits)
    (v <<< shift) >>> shift

/-- The 64-bit integer of value `i`, if there is one. -/
def ofInt? (i : Int) : Option Int64 :=
  if Int64.minValue.toInt ≤ i ∧ i ≤ Int64.maxValue.toInt then some (Int64.ofInt i) else none

/-- The sum, unless it leaves the 64-bit range. -/
def add? (a b : Int64) : Option Int64 :=
  ofInt? (a.toInt + b.toInt)

/-- The difference, unless it leaves the 64-bit range. -/
def sub? (a b : Int64) : Option Int64 :=
  ofInt? (a.toInt - b.toInt)

/-- The product, unless it leaves the 64-bit range. -/
def mul? (a b : Int64) : Option Int64 :=
  ofInt? (a.toInt * b.toInt)

/-- The opposite, unless it leaves the 64-bit range. -/
def neg? (a : Int64) : Option Int64 :=
  ofInt? (-a.toInt)

/-- The quotient, rounded toward zero, unless the divisor is zero or the quotient leaves the
64-bit range. -/
def div? (a b : Int64) : Option Int64 :=
  if b = 0 then none else ofInt? (a.toInt.tdiv b.toInt)

/-- The remainder that belongs to `div?`, with the sign of the dividend. It exists exactly
when the quotient does. -/
def mod? (a b : Int64) : Option Int64 :=
  (div? a b).map fun _ => Int64.ofInt (a.toInt.tmod b.toInt)

/-- Decimal digits with an optional sign, read as a 64-bit integer. Anything else, an empty
number or one out of range included, is not an integer. -/
def ofText? (text : String) : Option Int64 :=
  match text.toList with
  | '-' :: digits => (magnitude? digits).bind fun n => ofInt? (-(n : Int))
  | '+' :: digits => (magnitude? digits).bind fun n => ofInt? n
  | digits => (magnitude? digits).bind fun n => ofInt? n
where
  /-- The number that a non-empty list of decimal digits denotes. -/
  magnitude? (digits : List Char) : Option Nat :=
    if digits.isEmpty || digits.any (!·.isDigit) then none
    else some (digits.foldl (fun n c => 10 * n + (c.toNat - '0'.toNat)) 0)

end Oberon.Word
