import AngleSeries.Decimal.Text
import AngleSeries.Fault

/-!
# Fractions

An exact number `numerator / denominator · 10 ^ exponent`. The denominator is positive and the
sign is that of the numerator. The power of ten stands apart, so that it never has to be expanded;
it is a binary64 number, and sums of exponents are binary64 sums. Fractions are not reduced.
-/

namespace AngleSeries

structure Fraction where
  numerator : Int
  denominator : Nat
  exponent : Double
  positive : 0 < denominator

namespace Fraction

/-- A fraction from any numerator and denominator; the exponent has to be a safe integer. -/
def make (numerator denominator : Int) (exponent : Double) : Except Fault Fraction :=
  if h : denominator = 0 then .error (.range .zeroDenominator)
  else if !exponent.isSafeInteger then .error (.range (.unsafeExponent exponent.text))
  else
    .ok {
      numerator := if denominator < 0 then -numerator else numerator
      denominator := denominator.natAbs
      exponent := exponent
      positive := Int.natAbs_pos.2 h
    }

def ofInt (value : Int) : Fraction :=
  ⟨value, 1, 0, Nat.one_pos⟩

/-- The product of a list of fractions. The numbers multiply exactly, and the exponents are added
up from the left. -/
def product (factors : List Fraction) : Except Fault Fraction :=
  make (factors.foldl (fun n factor => n * factor.numerator) 1)
    (factors.foldl (fun d factor => d * factor.denominator) (1 : Nat) : Nat)
    (factors.foldl (fun e factor => e + factor.exponent) 0)

def quotient (dividend divisor : Fraction) : Except Fault Fraction :=
  make (dividend.numerator * divisor.denominator) (dividend.denominator * divisor.numerator)
    (dividend.exponent - divisor.exponent)

/-- The exact value, for an exponent that is an integer. -/
def toRat (value : Fraction) : Rat :=
  (value.numerator : Rat) / value.denominator * (10 : Rat) ^ value.exponent.toInt?.getD 0

end Fraction

end AngleSeries
