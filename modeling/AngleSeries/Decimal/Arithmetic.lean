import AngleSeries.Decimal.Basic

/-!
# Arithmetic on decimals

Quotients and products are computed exactly and rounded once to `precision` significant digits,
halves to the even neighbour.
-/

namespace AngleSeries.Decimal

/-- Significant digits of a rounded result. -/
def precision : Nat := 80

def rounded (round : Nat → Nat → Nat) (count : Nat) (negative : Bool) (n d : Nat)
    (exponent : Int) : Decimal :=
  if n = 0 then signedZero negative
  else
    let (coefficient, scale) := roundToDigits round count n d
    ofScaled negative coefficient (scale + exponent)

def quotient (n : Int) (d : Nat) : Decimal :=
  rounded roundHalfEven precision (n < 0) n.natAbs d 0

/-- The product before rounding, with `finish` applied to a finite one. -/
def mulWith (finish : Bool → Nat → Int → Decimal) : Decimal → Decimal → Decimal
  | .nan, _ => .nan
  | _, .nan => .nan
  | .infinite a, .infinite b => .infinite (a ^^ b)
  | .infinite a, .finite b n _ _ => if n = 0 then .nan else .infinite (a ^^ b)
  | .finite a m _ _, .infinite b => if m = 0 then .nan else .infinite (a ^^ b)
  | .finite a m p _, .finite b n q _ => finish (a ^^ b) (m * n) (p + q)

def mul : Decimal → Decimal → Decimal :=
  mulWith fun negative coefficient exponent =>
    rounded roundHalfEven precision negative coefficient 1 exponent

def mulExact : Decimal → Decimal → Decimal :=
  mulWith ofScaled

instance : Mul Decimal := ⟨mul⟩

end AngleSeries.Decimal
