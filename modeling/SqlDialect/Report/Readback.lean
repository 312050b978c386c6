import SqlDialect.Decimal.Reading
import SqlDialect.Report.Table

/-!
# Results read back

A value of a result that is read back from its JSON form is the same, decimals apart: of those the digits are rounded
to a binary number first, and that number is then scaled by the power of ten. The second rounding can change the last
bit.
-/

namespace SqlDialect

namespace Decimal

/-- The power of ten with the given exponent, rounded to a binary number. -/
def power (exponent : Nat) : Float := ofPlace false (nearestBits (Nat.pow 10 exponent) 1)

/-- The greatest exponent of a power of ten within the range of binary numbers. -/
def maxPower : Nat := 308

/-- A binary number multiplied by a power of ten, or divided by it in steps of at most `maxPower`. -/
def scale (x : Float) (exponent : Int) : Float :=
  let n := exponent.natAbs
  if 0 ≤ exponent then x * power n
  else if n ≤ maxPower then x / power n
  else x / power maxPower / power (n - maxPower)

/-- A numeral read in two steps: its digits are rounded, and the result is scaled. -/
def Numeral.toFloatInSteps (d : Numeral) : Float :=
  let x := scale (ofPlace false (nearestBits d.digits 1)) d.exponent
  if d.negative then -x else x

end Decimal

namespace Report

/-- What a value of a result is read back as from its JSON form. -/
def readBack : Value → Value
  | .float x =>
    match Decimal.splitSign (floatText x).toList with
    | (negative, text) =>
      match Decimal.numeral? negative text with
      | some d => .float d.toFloatInSteps
      | none => .float x
  | v => v

end Report

end SqlDialect
