import AngleSeries.Proofs.SecretFraction
import AngleSeries.Transform.Draft

/-!
# Decimals through fractions and back

A fraction has the point behind the last digit, so the power of ten beside the digits of a decimal is
that of its last digit. On the way back this power has to be a decimal by itself, while the range of
decimals is one of leading digits. At the lower end of the range a decimal of several digits has its
last one beyond it: the power is lost, and the decimal with it. Every other decimal comes back, if
it has no more digits than results have.
-/

namespace AngleSeries

open Numeral

/-- What fits into the digits is kept, with its sign. -/
theorem roundSignificant_intCast {count : ℕ} (hcount : count ≠ 0) {n : ℤ}
    (hdigits : digitCount n.natAbs ≤ count) : roundSignificant count (n : ℚ) = n := by
  have hlt : n.natAbs < 10 ^ count := (digitCount_le_iff hcount).mp hdigits
  have hmagnitude := roundSignificant_of_lt hlt 0
  rw [zpow_zero, mul_one] at hmagnitude
  obtain ⟨m, rfl | rfl⟩ := n.eq_nat_or_neg
  · rw [Int.natAbs_natCast] at hmagnitude
    rw [Int.cast_natCast, hmagnitude]
  · rw [Int.natAbs_neg, Int.natAbs_natCast] at hmagnitude
    rw [Int.cast_neg, Int.cast_natCast, roundSignificant_neg, hmagnitude]

namespace Decimal

/-- The decimal of the fraction that a decimal equals. -/
def throughFraction (d : Decimal) : Except Fault Decimal := do
  (← Fraction.ofDecimal d).toDecimal

/-- The ratio of a decimal beside two ones. -/
def overOne (d : Decimal) : Except Fault Decimal := do
  let one := (Value.number 1).readDecimal
  (← ratioOf (Value.decimal d).readDecimal one one).toDecimal

/-- The outcome is a decimal of the same value. -/
def ComesBack (d : Decimal) (outcome : Except Fault Decimal) : Prop :=
  ∃ x, outcome = .ok x ∧ x.isFinite = true ∧ x.toRat = d.toRat

section Finite

variable {d : Decimal} (hfinite : d.isFinite = true)

include hfinite

/-- The last digit does not stand to the left of the leading one. -/
theorem lastExponent_le : d.lastExponent ≤ exponentLimit := by
  obtain ⟨negative, coefficient, exponent, normal, rfl⟩ := exists_of_isFinite hfinite
  have hlead := (abs_le.mp (abs_leadOf_le normal)).2
  have hpositive := digitCount_pos coefficient
  have hdef : leadOf coefficient exponent = exponent + digitCount coefficient - 1 := rfl
  change exponent ≤ exponentLimit
  omega

theorem abs_log_toRat_le : |Int.log 10 (|d.toRat|)| ≤ exponentLimit := by
  obtain ⟨negative, coefficient, exponent, normal, rfl⟩ := exists_of_isFinite hfinite
  have hnonneg : (0 : ℚ) ≤ coefficient * 10 ^ exponent := by positivity
  rw [toRat_finite, abs_signed, abs_of_nonneg hnonneg]
  by_cases hzero : coefficient = 0
  · rw [hzero, Nat.cast_zero, zero_mul, Int.log_zero_right]
    decide
  · rw [← leadOf_eq_log hzero]
    exact abs_leadOf_le normal

theorem toRat_ne_zero_of_below (hbelow : d.lastExponent < -exponentLimit) : d.toRat ≠ 0 := by
  intro hzero
  rw [lastExponent_of_zero hfinite hzero] at hbelow
  exact absurd hbelow (by decide)

variable (hdigits : d.digitLength ≤ precision)

include hdigits

/-- Digits without their power of ten are far from either end of the range, and not rounded. -/
theorem abs_log_round_signedCoefficient_le :
    |Int.log 10 (|roundSignificant precision (d.signedCoefficient : ℚ)|)| ≤ exponentLimit := by
  have hcount := digitCount_signedCoefficient hfinite
  rw [roundSignificant_intCast (by decide) (hcount.trans_le hdigits)]
  by_cases hzero : d.signedCoefficient = 0
  · rw [hzero, Int.cast_zero, abs_zero, Int.log_zero_right]
    decide
  have hpositive := digitCount_pos d.signedCoefficient.natAbs
  have hlog := log_natCast_mul_zpow (Int.natAbs_ne_zero.mpr hzero) 0
  have hlimit : exponentLimit = 9000000000000000 := rfl
  have hprecision : precision = 80 := rfl
  rw [zpow_zero, mul_one, Nat.cast_natAbs, Int.cast_abs] at hlog
  rw [hlog, hlimit, abs_le]
  omega

theorem exists_fraction : ∃ value, Fraction.ofDecimal d = .ok value
    ∧ value.numerator = d.signedCoefficient ∧ value.denominator = 1
    ∧ value.ratio = d.signedCoefficient
    ∧ value.exponent.toInt? = some d.lastExponent ∧ |d.lastExponent| ≤ Double.maxSafe := by
  have hshort : d.digitLength < digitBound := hdigits.trans_lt (by decide)
  obtain ⟨value, hvalue, hnumerator, hdenominator, hexponent⟩ := Fraction.exists_ofDecimal hfinite
  refine ⟨value, hvalue, hnumerator, hdenominator, ?_, hexponent hshort,
    abs_lastExponent_le hfinite hshort⟩
  rw [Fraction.ratio, hnumerator, hdenominator, Nat.cast_one, div_one]

theorem throughFraction_of_within (hlow : -exponentLimit ≤ d.lastExponent) :
    d.ComesBack d.throughFraction := by
  obtain ⟨value, hvalue, -, -, hratio, hexponent, -⟩ := exists_fraction hfinite hdigits
  have hrange := abs_log_round_signedCoefficient_le hfinite hdigits
  rw [← hratio] at hrange
  obtain ⟨x, hx, hrepresents⟩ := Fraction.toDecimal_represents hexponent
    (abs_le.mpr ⟨hlow, lastExponent_le hfinite⟩) hrange
  rw [hratio, roundSignificant_mul_zpow, roundSignificant_intCast (by decide)
    ((digitCount_signedCoefficient hfinite).trans_le hdigits), ← toRat_eq hfinite] at hrepresents
  obtain ⟨hxFinite, hxValue⟩ := hrepresents.within (abs_log_toRat_le hfinite)
  exact ⟨x, by rw [throughFraction, hvalue, Outcome.ok_bind, hx], hxFinite, hxValue⟩

theorem throughFraction_of_below (hbelow : d.lastExponent < -exponentLimit) :
    ∃ x, d.throughFraction = .ok x ∧ x.isFinite = true ∧ x.toRat = 0 := by
  obtain ⟨value, hvalue, -, -, hratio, hexponent, hsafe⟩ := exists_fraction hfinite hdigits
  have hrange := abs_log_round_signedCoefficient_le hfinite hdigits
  rw [← hratio] at hrange
  obtain ⟨x, hx, hxFinite, hxZero⟩ := Fraction.toDecimal_of_below hexponent hsafe hbelow hrange
  exact ⟨x, by rw [throughFraction, hvalue, Outcome.ok_bind, hx], hxFinite, hxZero⟩

end Finite

/-! ### The ratio over one -/

/-- Inputs of which all but the first are ones. -/
def amongOnes (d : Decimal) : Inputs where
  pi := d
  lambda := ofInt 1
  mu := ofInt 1
  x := 1
  hashHex := "1"
  blockSize := 1
  crcValue := 0

theorem overOne_eq_ratio (d : Decimal) : d.overOne = (amongOnes d).ratio := by
  have hone : (Value.number 1).readDecimal = .ok (ofInt 1) := by decide +kernel
  rw [overOne, hone]
  rfl

section Finite

variable {d : Decimal} (hfinite : d.isFinite = true) (hdigits : d.digitLength ≤ precision)

include hfinite

theorem evaluable_amongOnes : (amongOnes d).Evaluable 1 := by
  have hone : (ofInt 1).isFinite = true := by decide +kernel
  have hdivisor : (ofInt 1).isZero = false := by decide +kernel
  have hhash : Hash.parse "1" = .ok 1 := by decide +kernel
  exact ⟨hfinite, hone, hone, hdivisor, hhash, (by decide : (0 : ℤ) < 1 + 0)⟩

include hdigits

theorem overOne_eq_throughFraction : d.overOne = d.throughFraction := by
  obtain ⟨value, hvalue, hnumerator, hdenominator, -, hexponent, hsafe⟩ :=
    exists_fraction hfinite hdigits
  have hshort : (amongOnes d).ShortDecimals := by
    have hone : (ofInt 1).digitLength < digitBound := by decide +kernel
    exact ⟨hdigits.trans_lt (by decide), hone, hone⟩
  have hdigit : (ofInt 1).signedCoefficient = 1 := by decide +kernel
  have hplace : (ofInt 1).lastExponent = 0 := by decide +kernel
  have hsum : (amongOnes d).exponentSum = d.lastExponent := by
    rw [Inputs.exponentSum, amongOnes, hplace, add_zero]
  have hpower : (amongOnes d).fractionExponent = d.lastExponent := by
    rw [Inputs.fractionExponent, hsum, amongOnes, hplace, sub_zero]
  have hratio : (amongOnes d).ratioFraction
      = .ok ⟨d.signedCoefficient, 1, Double.ofInt d.lastExponent, Nat.one_pos⟩ := by
    rw [Inputs.ratioFraction_eq_make (evaluable_amongOnes hfinite) hshort (by rwa [hsum]), hpower,
      amongOnes, hdigit, mul_one,
      Fraction.make_one _ ((Double.isSafeInteger_ofInt d.lastExponent).mpr hsafe)]
  have hexact : (Double.ofInt d.lastExponent).toInt? = some d.lastExponent :=
    Double.toInt?_ofInt (Double.natAbs_le_of_safe hsafe)
  have hover := @Fraction.toDecimal_eq
    ⟨d.signedCoefficient, 1, Double.ofInt d.lastExponent, Nat.one_pos⟩ _ hexact hsafe
  rw [overOne_eq_ratio, Inputs.ratio, hratio, throughFraction, hvalue, Outcome.ok_bind,
    Outcome.ok_bind, Fraction.toDecimal_eq hexponent hsafe, hover, hnumerator, hdenominator]

end Finite

variable {d : Decimal}

/-- **The way back.** A decimal of no more digits than results have comes back from its fraction, and
from the ratio over one, exactly if the power of ten of its last digit is in the range of decimals.
Otherwise zero comes back, although the decimal is not zero. -/
theorem comesBack_iff (hfinite : d.isFinite = true) (hdigits : d.digitLength ≤ precision) :
    (d.ComesBack d.throughFraction ↔ -exponentLimit ≤ d.lastExponent)
      ∧ (d.lastExponent < -exponentLimit → d.toRat ≠ 0
        ∧ ∃ x, d.throughFraction = .ok x ∧ x.isFinite = true ∧ x.toRat = 0)
      ∧ d.overOne = d.throughFraction := by
  refine ⟨⟨?_, throughFraction_of_within hfinite hdigits⟩, fun hbelow =>
    ⟨toRat_ne_zero_of_below hfinite hbelow, throughFraction_of_below hfinite hdigits hbelow⟩,
    overOne_eq_throughFraction hfinite hdigits⟩
  rintro ⟨x, hx, -, hvalue⟩
  by_contra hlow
  obtain ⟨z, hz, -, hzero⟩ := throughFraction_of_below hfinite hdigits (not_le.mp hlow)
  cases hx.symm.trans hz
  exact toRat_ne_zero_of_below hfinite (not_le.mp hlow) (hvalue.symm.trans hzero)

/-- Two digits, the last one in the lowest place that a power of ten can have. -/
def deepest : Decimal :=
  .ofScaled true 15 (-exponentLimit)

theorem deepest_comesBack : deepest.isFinite = true ∧ deepest.digitLength ≤ precision
    ∧ deepest.ComesBack deepest.throughFraction ∧ deepest.overOne = deepest.throughFraction := by
  have hfinite : deepest.isFinite = true := by decide +kernel
  have hdigits : deepest.digitLength ≤ precision := by decide +kernel
  obtain ⟨hback, -, hone⟩ := comesBack_iff hfinite hdigits
  exact ⟨hfinite, hdigits, hback.mpr (by decide +kernel), hone⟩

/-- The same digits one place further down; the leading one is still in the range. -/
def sunk : Decimal :=
  .ofScaled false 15 (-exponentLimit - 1)

/-- A decimal of two digits with its leading digit in the lowest place comes back as zero. -/
theorem not_comesBack :
    sunk.isFinite = true ∧ sunk.digitLength = 2 ∧ sunk.toRat ≠ 0
      ∧ sunk.throughFraction = .ok (.signedZero false) ∧ sunk.overOne = .ok (.signedZero false)
      ∧ ¬ ∀ d : Decimal, d.isFinite = true → d.digitLength ≤ precision →
        d.ComesBack d.throughFraction := by
  have hfinite : sunk.isFinite = true := by decide +kernel
  have hdigits : sunk.digitLength = 2 := by decide +kernel
  have hthrough : sunk.throughFraction = .ok (.signedZero false) := by decide +kernel
  have hone : sunk.overOne = .ok (.signedZero false) := by decide +kernel
  have hne : sunk.toRat ≠ 0 := by
    rw [Ne, toRat_eq_zero_iff_isZero hfinite]
    decide +kernel
  refine ⟨hfinite, hdigits, hne, hthrough, hone, fun hall => ?_⟩
  obtain ⟨x, hx, -, hvalue⟩ := hall sunk hfinite (hdigits.trans_le (by decide))
  cases hx.symm.trans hthrough
  exact hne (hvalue.symm.trans (toRat_signedZero false))

end Decimal

end AngleSeries
