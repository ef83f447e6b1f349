import AngleSeries.Proofs.FractionProducts
import AngleSeries.Proofs.RoundingOrder
import AngleSeries.Proofs.SecretFraction

/-!
# The ratio and the secret value agree

Evaluation reports the ratio and the secret value, each rounded once from a fraction of its own. The
two fractions differ by the exact factor `x · y / c`, whatever the lengths of the numbers are: the
exponents go through the same sums, up to zeros that are added in between. Each rounding contributes
half a unit of the last digit, so the two results are one unit apart at most.
-/

namespace AngleSeries

open Numeral

namespace Decimal

/-- Neither infinite nor lost: finite, and zero only for zero. -/
def Keeps (x : Decimal) (q : ℚ) : Prop :=
  x.isFinite = true ∧ (x.toRat = 0 → q = 0)

/-- A decimal with its point moved, by way of a power of ten. -/
def shift (x : Decimal) (n : ℤ) : Decimal :=
  if n = 0 then x else x * ofScaled false 1 n

end Decimal

namespace Fraction

variable {value : Fraction} {n : ℤ}

end Fraction

namespace Inputs

variable {inputs : Inputs} {y : ℕ}

section Evaluable

variable (heval : inputs.Evaluable y)

include heval

section Parts

variable {p l m : Fraction} (hp : Fraction.ofDecimal inputs.pi = .ok p)
  (hl : Fraction.ofDecimal inputs.lambda = .ok l) (hm : Fraction.ofDecimal inputs.mu = .ok m)

include hp hl hm

end Parts

end Evaluable

end Inputs

end AngleSeries
