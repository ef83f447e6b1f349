import AngleSeries.Decimal.Reading
import AngleSeries.Fraction.Reading
import AngleSeries.Hash
import AngleSeries.Transform.Inputs

/-!
# The transform

The secret value of inputs is `((pi · y) · (lambda · x)) / (mu · c)`, where `y` is the number behind
the hash and `c` the sum of block size and checksum. All products are exact fractions and the
quotient is rounded once, at the end. A zero `mu` is reported before a bad hash, and a bad hash
before an empty block.
-/

namespace AngleSeries

def requireDivisor (mu : Decimal) : Except Fault Unit :=
  if mu.isZero then .error (.field (.zeroDivisor mu.text)) else .ok ()

/-- The sum of block size and checksum, which has to be positive. -/
def blockTotal (blockSize crcValue : Int) : Except Fault Int :=
  let total := blockSize + crcValue
  if total ≤ 0 then .error (.field (.emptyBlock blockSize crcValue)) else .ok total

/-- The exact `(pi · lambda) / mu` of decimals that are yet to be read, the divisor first. -/
def ratioOf (pi lambda mu : Except Fault Decimal) : Except Fault Fraction := do
  let mu ← mu
  requireDivisor mu
  let numerator ← Fraction.product
    [← Fraction.ofDecimal (← pi), ← Fraction.ofDecimal (← lambda)]
  Fraction.quotient numerator (← Fraction.ofDecimal mu)

namespace Inputs

def y (inputs : Inputs) : Except Fault Nat :=
  Hash.parse inputs.hashHex

def c (inputs : Inputs) : Except Fault Int :=
  blockTotal inputs.blockSize inputs.crcValue

/-- The exact `(pi · lambda) / mu`. -/
def ratioFraction (inputs : Inputs) : Except Fault Fraction :=
  ratioOf (.ok inputs.pi) (.ok inputs.lambda) (.ok inputs.mu)

def ratio (inputs : Inputs) : Except Fault Decimal := do
  (← inputs.ratioFraction).toDecimal

def secretFraction (inputs : Inputs) : Except Fault Fraction := do
  requireDivisor inputs.mu
  let y ← inputs.y
  let c ← inputs.c
  let numerator ← Fraction.product
    [← Fraction.ofDecimal inputs.pi, Fraction.ofInt y, ← Fraction.ofDecimal inputs.lambda,
      Fraction.ofInt inputs.x]
  let denominator ← Fraction.product [← Fraction.ofDecimal inputs.mu, Fraction.ofInt c]
  Fraction.quotient numerator denominator

/-- The secret value, rounded once. -/
def secret (inputs : Inputs) : Except Fault Decimal := do
  (← inputs.secretFraction).toDecimal

end Inputs

structure Evaluation where
  inputs : InputTexts
  y : String
  c : String
  ratio : String
  value : String
  deriving DecidableEq

def Inputs.evaluate (inputs : Inputs) : Except Fault Evaluation := do
  let y ← inputs.y
  let c ← inputs.c
  let ratio ← inputs.ratio
  let value ← inputs.secret
  .ok {
    inputs := inputs.texts
    y := Numeral.natText y
    c := Numeral.intText c
    ratio := ratio.text
    value := value.text
  }

end AngleSeries
