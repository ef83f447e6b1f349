import AngleSeries.Numeral

/-!
# Rounding a quotient

Every inexact result in this library is one exact quotient of natural numbers that is rounded once.
`roundHalfEven` and `roundHalfUp` are the two ways ties go, `leadingExponent` finds the decade a
positive quotient lies in, and `roundToDigits` keeps a given number of significant decimal digits.
-/

namespace AngleSeries

open Numeral

-- Powers are the built-in ones, also where other instances are in scope.
attribute [local instance (2000)] instPowNat

/-- The integer nearest to `n / d`; a half goes to the even neighbour. -/
def roundHalfEven (n d : Nat) : Nat :=
  let q := n / d
  let r := n % d
  if 2 * r < d then q
  else if d < 2 * r then q + 1
  else q + q % 2

/-- The integer nearest to `n / d`; a half goes up. -/
def roundHalfUp (n d : Nat) : Nat :=
  (2 * n + d) / (2 * d)

/-- The `k` with `10 ^ k ≤ n / d < 10 ^ (k + 1)`, for positive `n` and `d`. -/
def leadingExponent (n d : Nat) : Int :=
  let k : Int := (digitCount n : Int) - digitCount d
  if d * 10 ^ k.toNat ≤ n * 10 ^ (-k).toNat then k else k - 1

/-- `n / d` to `count` significant decimal digits: a coefficient and its power of ten. -/
def roundToDigits (round : Nat → Nat → Nat) (count n d : Nat) : Nat × Int :=
  let exponent := leadingExponent n d - ((count : Int) - 1)
  (round (n * 10 ^ (-exponent).toNat) (d * 10 ^ exponent.toNat), exponent)

end AngleSeries
