import AngleSeries.Decimal.Text

/-!
# Decimals with a fixed count of places

A decimal is rounded to a count of decimal places, a half to the even neighbour, and all places are
written, whatever the magnitude. The sign is that of the decimal before rounding, so a negative one
that rounds to zero keeps it; zero itself has no sign.
-/

namespace AngleSeries.Decimal

open Numeral

-- Powers are the built-in ones, also where other instances are in scope.
attribute [local instance (2000)] instPowNat

/-- The digits of `coefficient · 10 ^ exponent`, rounded and counted in units of the last of
`places` places. At most one place more than there are digits is dropped: less than a tenth of a
unit is left then, and dropping more of it would still give zero. -/
def unitDigits (places coefficient : Nat) (exponent : Int) : List Char :=
  let shift := exponent + places
  if 0 ≤ shift then toDigits 10 coefficient ++ List.replicate shift.toNat '0'
  else
    let dropped := min shift.natAbs (digitCount coefficient + 1)
    toDigits 10 (roundHalfEven coefficient (10 ^ dropped))

def wholeLength : Decimal → Nat
  | .finite _ coefficient exponent _ => (leadOf coefficient exponent + 1).toNat
  | _ => 0

def fixed (places : Nat) : Decimal → String
  | .finite negative coefficient exponent _ =>
    let body := fixedPoint places (unitDigits places coefficient exponent)
    String.ofList (if negative && coefficient != 0 then '-' :: body else body)
  | other => other.text

end AngleSeries.Decimal
