import AngleSeries.Decimal.Arithmetic
import AngleSeries.Fraction.Basic
import AngleSeries.Value.Text

/-!
# What fractions are read from

A finite decimal is a fraction over one, with its coefficient as numerator. The way back is the one
rounding of the transform: the quotient is rounded to the precision of decimals, and the power of
ten then only moves the point.
A fraction can also be given by its three parts. Its exponent is loose until it is known to be a
number, and a zero denominator is reported first, whatever the exponent is.
-/

namespace AngleSeries.Fraction

open Numeral

-- Powers are the built-in ones, also where other instances are in scope.
attribute [local instance (2000)] instPowNat

/-! ### Decimals -/

/-- The fraction a finite decimal equals. The exponent is that of the leading digit less the number
of digits after it. -/
def ofDecimal : Decimal → Except Fault Fraction
  | .finite negative coefficient exponent _ =>
    .ok {
      numerator := if negative then -(coefficient : Int) else coefficient
      denominator := 1
      exponent :=
        Double.ofInt (leadOf coefficient exponent) - Double.ofNat (digitCount coefficient - 1)
      positive := Nat.one_pos
    }
  | other => .error (.range (.notFinite other.text))

def powerOfTen (exponent : Double) : Except Fault Decimal :=
  match exponent.toInt? with
  | some n =>
    if n.natAbs < 10 ^ (21 : Nat) then .ok (Decimal.ofScaled false 1 n)
    else .error (.badDecimal ("1e" ++ exponent.text))
  | none => .error (.badDecimal ("1e" ++ exponent.text))

def toDecimal (value : Fraction) : Except Fault Decimal := do
  let quotient := Decimal.quotient value.numerator value.denominator
  if value.exponent.isZero then .ok quotient
  else
    let power ← powerOfTen value.exponent
    .ok (quotient * power)

/-! ### Loose exponents -/

/-- A fraction from any numerator, denominator and exponent; an absent exponent is zero. -/
def read (numerator denominator : Int) (exponent : Value) : Except Fault Fraction :=
  match exponent with
  | .absent => make numerator denominator 0
  | .number x => make numerator denominator x
  | other => do
    let _ ← make numerator denominator 0
    other.outOfRange .unsafeExponent

end AngleSeries.Fraction
