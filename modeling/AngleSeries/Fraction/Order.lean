import AngleSeries.Fraction.Basic

/-!
# Comparing fractions

Signs decide first. Two magnitudes whose decimal sizes are more than one order apart are told
apart by their digit counts and exponents alone; otherwise the exponents differ by no more than the
digit counts do, and the cross products stay in proportion to the operands.
-/

namespace AngleSeries.Fraction

open Numeral

-- Powers are the built-in ones, also where other instances are in scope.
attribute [local instance (2000)] instPowNat

def sign (value : Fraction) : Int :=
  value.numerator.sign

/-- The decimal size of a fraction: its magnitude is within one order of ten to this power. -/
def spread (value : Fraction) : Double :=
  Double.ofInt ((digitCount value.numerator.natAbs : Int) - digitCount value.denominator)
    + value.exponent

/-- The cross products of two magnitudes, with the power of ten between them on the side it
belongs to. -/
def crossProducts (a b : Fraction) (gap : Int) : Nat × Nat :=
  (a.numerator.natAbs * b.denominator * 10 ^ gap.toNat,
    b.numerator.natAbs * a.denominator * 10 ^ (-gap).toNat)

/-- The integer value of the gap between two exponents; infinite exponents leave none. -/
def gap (a b : Fraction) : Except Fault Int :=
  match a.exponent - b.exponent with
  | .nan => .ok 0
  | gap => match gap.toInt? with
    | some gap => .ok gap
    | none => .error (.range .notAnInteger)

def compareMagnitudes (a b : Fraction) : Except Fault Ordering :=
  if (a.spread + 1).lt b.spread then .ok .lt
  else if (b.spread + 1).lt a.spread then .ok .gt
  else do
    let (left, right) := crossProducts a b (← gap a b)
    .ok (compare left right)

def order (a b : Fraction) : Except Fault Ordering :=
  if a.sign ≠ b.sign then .ok (if a.sign < b.sign then .lt else .gt)
  else if a.sign = 0 then .ok .eq
  else do
    let magnitude ← compareMagnitudes a b
    .ok (if 0 < a.sign then magnitude else magnitude.swap)

end AngleSeries.Fraction
