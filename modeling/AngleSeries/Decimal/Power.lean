import AngleSeries.Decimal.Arithmetic
import AngleSeries.Decimal.Text

/-!
# Powers of two

Powers of two to twenty significant digits, halves up. They are built by repeated squaring on words
of seven decimal digits, and after every product only some leading words are kept. As long as the
exponent is a safe integer seven words are kept, which is what the digits that come out depend on;
for larger exponents so many are kept that the digits are those of the exact power.
-/

namespace AngleSeries.Decimal

open Numeral

-- Powers are the built-in ones, also where other instances are in scope.
attribute [local instance (2000)] instPowNat

/-- `coefficient · 10 ^ (7 · scale)`, and whether the product that made it lost a part. -/
structure Words where
  coefficient : Nat
  scale : Int
  isCut : Bool

namespace Words

def base : Nat := 10 ^ (7 : Nat)

def count (coefficient : Nat) : Nat :=
  (digitCount coefficient + 6) / 7

def mul (kept : Nat) (a b : Words) : Words :=
  let product := a.coefficient * b.coefficient
  let excess := count product - kept
  { coefficient := product / base ^ excess
    scale := a.scale + b.scale + excess
    isCut := product % base ^ excess != 0 }

/-- `power · square ^ n` by repeated squaring. -/
def powOnto (kept : Nat) (square power : Words) (n : Nat) : Words :=
  if n = 0 then power
  else
    powOnto kept (square.mul kept square) (if n % 2 = 1 then power.mul kept square else power)
      (n / 2)
termination_by n
decreasing_by omega

/-- The leading words of `2 ^ n`. A last word that is empty although a part was lost counts as one,
so that rounding does not mistake the power for a tie. -/
def twoPow (kept n : Nat) : Words :=
  let power := powOnto kept ⟨2, 0, false⟩ ⟨1, 0, false⟩ n
  if power.isCut && power.coefficient % base == 0 then
    { power with coefficient := power.coefficient + 1 }
  else power

end Words

def powerPrecision : Nat := 20

/-- Words kept while a power with a safe exponent is built. -/
def safeWords : Nat := 7

/-- Words kept while a power with a larger exponent is built. -/
def manyWords : Nat := 12

/-- The exponent of the greatest power of two within range. -/
def powerLimit : Int := 29897352853986260

/-- `2 ^ n` to `powerPrecision` digits, halves up. -/
def twoPow (n : Int) : Decimal :=
  if powerLimit < n then .infinite false
  else if n < -powerLimit then signedZero false
  else
    let kept := if n.natAbs ≤ Double.maxSafe.natAbs then safeWords else manyWords
    let power := Words.twoPow kept n.natAbs
    if n < 0 then rounded roundHalfUp powerPrecision false 1 power.coefficient (-7 * power.scale)
    else rounded roundHalfUp powerPrecision false power.coefficient 1 (7 * power.scale)

/-- Multiplies by a power of two. A small power is the shortest decimal of the binary64 number
`2 ^ n` and multiplies exactly; a large one has `powerPrecision` digits and the product is
rounded. -/
def scaleByTwo (x : Decimal) (n : Int) : Decimal :=
  if n = 0 then x
  else if n.natAbs < 54 then
    let units := if n < 0 then unitsPerOne / 2 ^ n.natAbs else unitsPerOne * 2 ^ n.natAbs
    mulExact x (ofDouble (Double.ofUnits false units))
  else x * twoPow n

/-- An exponent as it takes effect: the whole number that the shortest digits of its binary64
number denote. Safe integers are their own. -/
def effectiveExponent (n : Int) : Int :=
  match Double.ofInt n with
  | .finite negative units _ =>
    if units = 0 then 0
    else
      let (coefficient, exponent) := Double.shortest units
      let magnitude : Int := (coefficient * 10 ^ exponent.toNat : Nat)
      if negative then -magnitude else magnitude
  | _ => n

end AngleSeries.Decimal
