import AngleSeries.Proofs.FractionOrder
import AngleSeries.Proofs.RoundingOrder
import AngleSeries.Proofs.SecretFraction

/-!
# The secret value grows with its factor

With positive parameters the exact secret value is a positive multiple of the integer `x`, so it
grows with it strictly. The comparison of fractions sees that: their sizes stay below `2 ^ 53`,
where no sum of exponents and digit counts is rounded. The secret value itself can only be said not
to fall, since neighbours may be rounded to one decimal or leave its range at the same end.
-/

namespace AngleSeries

open Numeral

/-! ### Decimals in order -/

namespace Decimal

theorem toRat_pos_iff {x : Decimal} (hx : x.isFinite = true) :
    0 < x.toRat ↔ 0 < x.signedCoefficient := by
  rw [toRat_eq hx, mul_pos_iff_of_pos_right (by positivity), Int.cast_pos]

/-- The order of decimals, with an infinity at either end and a place for everything but no number. -/
inductive AtMost : Decimal → Decimal → Prop where
  | bottom {x : Decimal} (hx : x ≠ nan) : AtMost (infinite true) x
  | top {x : Decimal} (hx : x ≠ nan) : AtMost x (infinite false)
  | finite {x y : Decimal} (hx : x.isFinite = true) (hy : y.isFinite = true)
      (hle : x.toRat ≤ y.toRat) : AtMost x y

section Represents

variable {x y : Decimal} {p q : ℚ}

theorem log_abs_le_of_pos (hp : 0 < p) (hle : p ≤ q) : Int.log 10 |p| ≤ Int.log 10 |q| := by
  rw [abs_of_pos hp, abs_of_pos (hp.trans_le hle)]
  exact Int.log_mono_right hp hle

theorem log_abs_le_of_neg (hq : q < 0) (hle : p ≤ q) : Int.log 10 |q| ≤ Int.log 10 |p| := by
  rw [abs_of_neg hq, abs_of_neg (hle.trans_lt hq)]
  exact Int.log_mono_right (neg_pos.mpr hq) (neg_le_neg hle)

theorem ne_zero_of_log_gt (habove : exponentLimit < Int.log 10 |p|) : p ≠ 0 := by
  rintro rfl
  rw [abs_zero, Int.log_zero_right] at habove
  exact absurd habove (by decide)

theorem Represents.ne_nan (hx : x.Represents p) : x ≠ nan := by
  rintro rfl
  rcases hx.cases with ⟨-, hinfinite⟩ | ⟨-, hfinite, -⟩ | ⟨-, hfinite, -⟩
  · cases hinfinite
  · cases hfinite
  · cases hfinite

theorem Represents.eq_top (hx : x.Represents p) (hp : 0 < p)
    (habove : exponentLimit < Int.log 10 |p|) : x = infinite false := by
  rw [hx.above habove, decide_eq_false hp.not_gt]

theorem Represents.eq_bottom (hx : x.Represents p) (hp : p < 0)
    (habove : exponentLimit < Int.log 10 |p|) : x = infinite true := by
  rw [hx.above habove, decide_eq_true hp]

section Pair

variable (hx : x.Represents p) (hy : y.Represents q) (hle : p ≤ q)

include hx hy hle

/-- An infinity below takes along what is less, and one above what is greater. -/
theorem Represents.atMost_of_above
    (habove : exponentLimit < Int.log 10 |p| ∨ exponentLimit < Int.log 10 |q|) : x.AtMost y := by
  rcases habove with habove | habove
  · rcases lt_or_gt_of_ne (ne_zero_of_log_gt habove) with hneg | hpos
    · rw [hx.eq_bottom hneg habove]
      exact .bottom hy.ne_nan
    · rw [hy.eq_top (hpos.trans_le hle) (habove.trans_le (log_abs_le_of_pos hpos hle))]
      exact .top hx.ne_nan
  · rcases lt_or_gt_of_ne (ne_zero_of_log_gt habove) with hneg | hpos
    · rw [hx.eq_bottom (hle.trans_lt hneg) (habove.trans_le (log_abs_le_of_neg hneg hle))]
      exact .bottom hy.ne_nan
    · rw [hy.eq_top hpos habove]
      exact .top hx.ne_nan

/-- **Decimals stand in the order of the numbers** that they represent, beyond their range as well
as within. -/
theorem Represents.atMost : x.AtMost y := by
  rcases hx.cases with ⟨habove, -⟩ | ⟨hpLog, hxFinite, hxValue⟩ | ⟨hpLog, hxFinite, hxValue⟩
  · exact Represents.atMost_of_above hx hy hle (.inl habove)
  · rcases hy.cases with ⟨habove, -⟩ | ⟨hqLog, hyFinite, hyValue⟩ | ⟨hqLog, hyFinite, hyValue⟩
    · exact Represents.atMost_of_above hx hy hle (.inr habove)
    · exact .finite hxFinite hyFinite (by rwa [hxValue, hyValue])
    · -- What is kept and not above something lost is negative.
      refine .finite hxFinite hyFinite ?_
      rw [hxValue, hyValue]
      by_contra hpos
      have hlog := log_abs_le_of_pos (not_le.mp hpos) hle
      omega
  · rcases hy.cases with ⟨habove, -⟩ | ⟨hqLog, hyFinite, hyValue⟩ | ⟨hqLog, hyFinite, hyValue⟩
    · exact Represents.atMost_of_above hx hy hle (.inr habove)
    · refine .finite hxFinite hyFinite ?_
      rw [hxValue, hyValue]
      by_contra hneg
      have hlog := log_abs_le_of_neg (not_le.mp hneg) hle
      omega
    · exact .finite hxFinite hyFinite (by rw [hxValue, hyValue])

end Pair

end Represents

end Decimal

/-! ### Fractions in order -/

namespace Inputs

section Evaluable

variable {inputs : Inputs} {y : ℕ} (heval : inputs.Evaluable y) (hbound : inputs.Bounded y)
  (hsum : |inputs.exponentSum| ≤ Double.maxSafe)
  (hexponent : |inputs.fractionExponent| ≤ exponentLimit)

include heval hbound hsum hexponent

/-- The exact fraction has a size that is not rounded. -/
theorem exists_sized_secretFraction : ∃ value, inputs.secretFraction = .ok value
    ∧ value.toRat = inputs.exactSecret y ∧ value.Sized ∧ value.size.natAbs ≤ 2 ^ 53 := by
  have hsafe : inputs.SafeExponents := ⟨hsum, hexponent.trans (by decide)⟩
  obtain ⟨value, hvalue, hexact⟩ := secretFraction_exact heval hbound.decimals hsafe
  have hmake := secretFraction_eq_make heval hbound.decimals hsum
  rw [hvalue, eq_comm, Fraction.make_eq_ok_iff] at hmake
  obtain ⟨-, hsafeExponent, hnumerator, hdenominator, hvalueExponent⟩ := hmake
  have hnumeratorDigits : digitCount value.numerator.natAbs ≤ 4 * 10 ^ 12 := by
    have hnatAbs : value.numerator.natAbs = (inputs.numerator y).natAbs := by
      rw [hnumerator]
      split_ifs <;> simp
    rw [hnatAbs]
    exact digitCount_numerator_le heval hbound
  have hdenominatorDigits : digitCount value.denominator ≤ 2 * 10 ^ 12 := by
    rw [hdenominator]
    exact digitCount_denominator_le heval hbound
  have hten : digitBound = 10 ^ 12 := rfl
  refine ⟨value, hvalue, hexact, ⟨by rw [hvalueExponent, hsafeExponent], by omega, by omega⟩, ?_⟩
  have hpower : value.exponent.toInt? = some inputs.fractionExponent := by
    rw [hvalueExponent]
    exact Double.toInt?_ofInt (Double.natAbs_le_of_safe hsafe.exponent)
  have hlimit : exponentLimit = 9000000000000000 := rfl
  rw [hlimit, abs_le] at hexponent
  rw [Fraction.size, hpower, Option.getD_some]
  omega

end Evaluable

/-- Evaluable inputs all of whose parameters are positive; `x` may have any sign. -/
structure Positive (inputs : Inputs) (y : ℕ) : Prop where
  evaluable : inputs.Evaluable y
  pi : 0 < inputs.pi.toRat
  lambda : 0 < inputs.lambda.toRat
  mu : 0 < inputs.mu.toRat
  hash : 0 < y

section Raised

variable {inputs : Inputs} {y : ℕ}

theorem Evaluable.withX (heval : inputs.Evaluable y) (x : ℤ) :
    Evaluable { inputs with x } y :=
  ⟨heval.pi, heval.lambda, heval.mu, heval.divisor, heval.hash, heval.block⟩

/-- With positive parameters the exact secret value is a positive multiple of `x`. -/
theorem exactSecret_lt (hpositive : inputs.Positive y) {x : ℤ} (hlt : inputs.x < x) :
    inputs.exactSecret y < exactSecret { inputs with x } y := by
  have hy : (0 : ℚ) < y := by exact_mod_cast hpositive.hash
  have hblock : (0 : ℚ) < (inputs.blockSize + inputs.crcValue : ℤ) := by
    exact_mod_cast hpositive.evaluable.block
  have hx : (inputs.x : ℚ) < x := by exact_mod_cast hlt
  have htop := mul_pos hpositive.pi hy
  have hbottom := mul_pos hpositive.mu hblock
  refine div_lt_div_of_pos_right ?_ hbottom
  exact mul_lt_mul_of_pos_left (mul_lt_mul_of_pos_left hx hpositive.lambda) htop

end Raised

/-- **Greater `x`, greater secret value.** With positive parameters the fraction of the greater `x`
is found to be the greater one, whatever the signs and lengths of the two are, and its decimal is not
the lesser one. -/
theorem secret_increasing {first second : Inputs} {y : ℕ}
    (hsame : second = { first with x := second.x }) (hlt : first.x < second.x)
    (hpositive : first.Positive y) (hfirst : first.Bounded y) (hsecond : second.Bounded y)
    (hsum : |first.exponentSum| ≤ Double.maxSafe)
    (hexponent : |first.fractionExponent| ≤ exponentLimit) :
    ∃ a b v w, first.secretFraction = .ok a ∧ second.secretFraction = .ok b
      ∧ a.order b = .ok .lt ∧ b.order a = .ok .gt
      ∧ first.secret = .ok v ∧ second.secret = .ok w ∧ v.AtMost w := by
  obtain ⟨x, rfl⟩ : ∃ x, second = { first with x } := ⟨second.x, hsame⟩
  have heval := hpositive.evaluable
  have heval' := heval.withX x
  have hexact := exactSecret_lt hpositive hlt
  obtain ⟨a, ha, haValue, haSized, haSize⟩ :=
    exists_sized_secretFraction heval hfirst hsum hexponent
  obtain ⟨b, hb, hbValue, hbSized, hbSize⟩ :=
    exists_sized_secretFraction heval' hsecond hsum hexponent
  obtain ⟨v, hv, hvRepresents⟩ := secret_represents heval hfirst hsum hexponent
  obtain ⟨w, hw, hwRepresents⟩ := secret_represents heval' hsecond hsum hexponent
  have hrounded := roundSignificant_mono (by decide : Decimal.precision ≠ 0) hexact.le
  refine ⟨a, b, v, w, ha, hb, ?_, ?_, hv, hw, hvRepresents.atMost hwRepresents hrounded⟩
  · rw [Fraction.order_of_size_le haSized hbSized haSize hbSize, haValue, hbValue,
      compare_lt_iff_lt.mpr hexact]
  · rw [Fraction.order_of_size_le hbSized haSized hbSize haSize, haValue, hbValue,
      compare_gt_iff_gt.mpr hexact]

/-- Inputs with a huge power of ten and an `x` below zero. -/
def sunken : Inputs where
  pi := .ofScaled false 314 8000000000000000
  lambda := .ofScaled false 2 (-3)
  mu := .ofScaled false 7 5
  x := -3
  hashHex := "0f"
  blockSize := 20
  crcValue := 5

/-- The same inputs with an `x` of many more digits above it. -/
def surfaced : Inputs :=
  { sunken with x := 12345678901234567890 }

theorem sunken_increasing : surfaced = { sunken with x := surfaced.x } ∧ sunken.x < surfaced.x
    ∧ sunken.Positive 15 ∧ sunken.Bounded 15 ∧ surfaced.Bounded 15
    ∧ |sunken.exponentSum| ≤ Double.maxSafe ∧ |sunken.fractionExponent| ≤ exponentLimit
    ∧ ∃ a b v w, sunken.secretFraction = .ok a ∧ surfaced.secretFraction = .ok b
      ∧ a.order b = .ok .lt ∧ b.order a = .ok .gt
      ∧ sunken.secret = .ok v ∧ surfaced.secret = .ok w ∧ v.AtMost w := by
  have hlt : sunken.x < surfaced.x := by decide
  have hpositive : sunken.Positive 15 :=
    ⟨by decide +kernel, (Decimal.toRat_pos_iff (by decide +kernel)).mpr (by decide +kernel),
      (Decimal.toRat_pos_iff (by decide +kernel)).mpr (by decide +kernel),
      (Decimal.toRat_pos_iff (by decide +kernel)).mpr (by decide +kernel), by decide⟩
  have hfirst : sunken.Bounded 15 := by decide +kernel
  have hsecond : surfaced.Bounded 15 := by decide +kernel
  have hsum : |sunken.exponentSum| ≤ Double.maxSafe := by decide +kernel
  have hexponent : |sunken.fractionExponent| ≤ exponentLimit := by decide +kernel
  exact ⟨rfl, hlt, hpositive, hfirst, hsecond, hsum, hexponent,
    secret_increasing rfl hlt hpositive hfirst hsecond hsum hexponent⟩

end Inputs

end AngleSeries
