import AngleSeries.Double.Arithmetic
import AngleSeries.Notation

/-!
# Shortest decimal digits

A binary64 number is printed with the fewest significant decimal digits that read back as the same
number, and among those with the digits nearest to it. The numbers that read back form an interval
around it: half a step up and half a step down, where the step below a power of two is half as
wide; the ends belong to it when the last binary digit is even. For one digit, two digits and so on
the two neighbours of the number on that decimal grid are tried against the interval.
-/

namespace AngleSeries.Double

open Numeral

-- Powers are the built-in ones, also where other instances are in scope.
attribute [local instance (2000)] instPowNat

/-- The interval of values that round to a number of units, in quarters of a unit. -/
structure Basin where
  low : Nat
  value : Nat
  high : Nat
  closed : Bool

def basin (units : Nat) : Basin :=
  let step := 2 ^ (units.log2 - 52)
  let narrow := units == 2 ^ units.log2 && 1 < step
  { low := 4 * units - (if narrow then step else 2 * step)
    value := 4 * units
    high := 4 * units + 2 * step
    closed := units / step % 2 == 0 }

def Basin.holds (basin : Basin) (n d : Nat) : Bool :=
  if basin.closed then basin.low * d ≤ n && n ≤ basin.high * d
  else basin.low * d < n && n < basin.high * d

/-- The multiple of `10 ^ exponent` in the interval that is nearest to its value, if one of the
two neighbouring multiples lies there; of two equally near ones the even multiple. -/
def Basin.nearest? (basin : Basin) (exponent : Int) : Option Nat :=
  let grid := 4 * unitsPerOne * 10 ^ exponent.toNat
  let scale := 10 ^ (-exponent).toNat
  let below := basin.value * scale / grid
  let holdsBelow := basin.holds (below * grid) scale
  let holdsAbove := basin.holds ((below + 1) * grid) scale
  if holdsBelow && holdsAbove then
    let twice := 2 * basin.value * scale
    let middle := (2 * below + 1) * grid
    if twice < middle then some below
    else if middle < twice then some (below + 1)
    else some (below + below % 2)
  else if holdsBelow then some below
  else if holdsAbove then some (below + 1)
  else none

/-- Tries grids of ever more digits, the first one being `10 ^ exponent`. -/
def Basin.search (basin : Basin) (exponent : Int) : Nat → Nat × Int
  | 0 => ((basin.nearest? exponent).getD 0, exponent)
  | more + 1 =>
    match basin.nearest? exponent with
    | some coefficient => (coefficient, exponent)
    | none => basin.search (exponent - 1) more

/-- The shortest decimal of a positive number of units: a coefficient without trailing zeros and
its power of ten. Seventeen digits always suffice. -/
def shortest (units : Nat) : Nat × Int :=
  let (coefficient, exponent) :=
    (basin units).search (leadingExponent units unitsPerOne) 16
  stripZeros coefficient exponent

/-- Plain notation for leading digits down to the sixth decimal place and up to `10 ^ 20`. -/
def textLayout : Layout := ⟨-6, 20, true⟩

/-- Like `textLayout`, without a sign on positive exponents. -/
def unsignedLayout : Layout := { textLayout with marksPlus := false }

/-- The number in the given layout; zero is written without its sign. -/
def textWith (layout : Layout) : Double → String
  | .nan => "NaN"
  | .infinite negative => if negative then "-Infinity" else "Infinity"
  | .finite negative units _ =>
    if units = 0 then "0"
    else
      let (coefficient, exponent) := shortest units
      let body := layout.writeScaled coefficient exponent
      String.ofList (if negative then '-' :: body else body)

def text (x : Double) : String :=
  x.textWith textLayout

/-- The number with a fixed count of decimal places, halves away from zero. A negative number that
rounds to zero keeps its sign, negative zero does not, and from `10 ^ 21` on the shortest text
stands instead. -/
def fixed (places : Nat) (x : Double) : String :=
  match x with
  | .finite negative units _ =>
    if 10 ^ (21 : Nat) * unitsPerOne ≤ units then x.text
    else
      let scaled := roundHalfUp (units * 10 ^ places) unitsPerOne
      let body := fixedPoint places (toDigits 10 scaled)
      String.ofList (if negative && units != 0 then '-' :: body else body)
  | other => other.text

end AngleSeries.Double
