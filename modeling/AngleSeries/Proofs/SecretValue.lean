import AngleSeries.Proofs.ExactFractions
import AngleSeries.Proofs.Outcomes
import AngleSeries.Transform.Evaluation

/-!
# The secret value as a number

The exact secret value is a rational number, and on evaluable inputs it is carried through the
transform without loss: digits as integers, powers of ten as a sum of exponents. Three limits meet
on the way. The two exponent sums have to be safe integers, or the fraction is refused; the last
exponent has to be one of a decimal, or the final power of ten is not there; and the result has to
lie in the range of decimals. Between these limits the secret value is the exact one, rounded once.
-/

namespace AngleSeries

open Numeral

namespace Inputs

/-- Inputs that the transform is defined on, with the number behind their hash. -/
structure Evaluable (inputs : Inputs) (y : ℕ) : Prop where
  pi : inputs.pi.isFinite = true
  lambda : inputs.lambda.isFinite = true
  mu : inputs.mu.isFinite = true
  divisor : inputs.mu.isZero = false
  hash : inputs.y = .ok y
  block : 0 < inputs.blockSize + inputs.crcValue

instance (inputs : Inputs) (y : ℕ) : Decidable (inputs.Evaluable y) :=
  decidable_of_iff (inputs.pi.isFinite = true ∧ inputs.lambda.isFinite = true
      ∧ inputs.mu.isFinite = true ∧ inputs.mu.isZero = false ∧ inputs.y = .ok y
      ∧ 0 < inputs.blockSize + inputs.crcValue)
    ⟨fun ⟨pi, lambda, mu, divisor, hash, block⟩ => ⟨pi, lambda, mu, divisor, hash, block⟩,
      fun h => ⟨h.pi, h.lambda, h.mu, h.divisor, h.hash, h.block⟩⟩

/-- No decimal has more digits than a host program can hold. -/
structure ShortDecimals (inputs : Inputs) : Prop where
  pi : inputs.pi.digitLength < digitBound
  lambda : inputs.lambda.digitLength < digitBound
  mu : inputs.mu.digitLength < digitBound

/-- No number has more digits than a host program can hold. The quotient of longer integers could
leave the range of decimals before its power of ten brings it back. -/
structure Bounded (inputs : Inputs) (y : ℕ) : Prop where
  pi : inputs.pi.digitLength < digitBound
  lambda : inputs.lambda.digitLength < digitBound
  mu : inputs.mu.digitLength < digitBound
  x : digitCount inputs.x.natAbs < digitBound
  y : digitCount y < digitBound
  c : digitCount (inputs.blockSize + inputs.crcValue).natAbs < digitBound

instance (inputs : Inputs) (y : ℕ) : Decidable (inputs.Bounded y) :=
  decidable_of_iff (inputs.pi.digitLength < digitBound ∧ inputs.lambda.digitLength < digitBound
      ∧ inputs.mu.digitLength < digitBound ∧ digitCount inputs.x.natAbs < digitBound
      ∧ digitCount y < digitBound
      ∧ digitCount (inputs.blockSize + inputs.crcValue).natAbs < digitBound)
    ⟨fun ⟨pi, lambda, mu, x, y, c⟩ => ⟨pi, lambda, mu, x, y, c⟩,
      fun h => ⟨h.pi, h.lambda, h.mu, h.x, h.y, h.c⟩⟩

theorem Bounded.decimals {inputs : Inputs} {y : ℕ} (hbound : inputs.Bounded y) :
    inputs.ShortDecimals :=
  ⟨hbound.pi, hbound.lambda, hbound.mu⟩

/-- The secret value before any rounding. -/
def exactSecret (inputs : Inputs) (y : ℕ) : ℚ :=
  (inputs.pi.toRat * y) * (inputs.lambda.toRat * inputs.x)
    / (inputs.mu.toRat * (inputs.blockSize + inputs.crcValue : ℤ))

/-- The exponent of the product of the two factors. -/
def exponentSum (inputs : Inputs) : ℤ :=
  inputs.pi.lastExponent + inputs.lambda.lastExponent

/-- The exponent of the exact fraction. -/
def fractionExponent (inputs : Inputs) : ℤ :=
  inputs.exponentSum - inputs.mu.lastExponent

/-- The numerator and the denominator of the exact fraction, without their powers of ten. -/
def numerator (inputs : Inputs) (y : ℕ) : ℤ :=
  inputs.pi.signedCoefficient * y * inputs.lambda.signedCoefficient * inputs.x

@[inherit_doc numerator]
def denominator (inputs : Inputs) : ℤ :=
  inputs.mu.signedCoefficient * (inputs.blockSize + inputs.crcValue)

/-- The exact secret value lies where decimals do, and so do the exponents on the way to it. -/
structure InRange (inputs : Inputs) (y : ℕ) : Prop where
  sum : |inputs.exponentSum| ≤ Double.maxSafe
  exponent : |inputs.fractionExponent| ≤ exponentLimit
  value : |Int.log 10 (|roundSignificant Decimal.precision (inputs.exactSecret y)|)|
    ≤ exponentLimit

/-! ### Sums of exponents -/

section Exponents

variable {p l m : Double} {i j k : ℤ}

/-- The exponents of integers are zeros in between. -/
theorem factorExponent_spec (hp : p.toInt? = some i) (hl : l.toInt? = some j)
    (hi : |i| ≤ Double.maxSafe) :
    ((0 + p + 0 + l + 0).isSafeInteger = true ↔ |i + j| ≤ Double.maxSafe)
      ∧ (|i + j| ≤ Double.maxSafe → 0 + p + 0 + l + 0 = Double.ofInt (i + j)) := by
  have hfirst := Double.natAbs_le_of_safe hi
  have hsum : 0 + p + 0 + l = Double.ofInt (i + j) := by
    rw [Double.zero_add_eq_ofInt hp, Double.ofInt_add_zero hfirst, Double.ofInt_add hfirst hl]
  rw [Double.isSafeInteger_add_zero, hsum]
  exact ⟨Double.isSafeInteger_ofInt _,
    fun hsafe => Double.ofInt_add_zero (Double.natAbs_le_of_safe hsafe)⟩

theorem divisorExponent_eq (hm : m.toInt? = some k) (hk : |k| ≤ Double.maxSafe) :
    0 + m + 0 = Double.ofInt k := by
  rw [Double.zero_add_eq_ofInt hm, Double.ofInt_add_zero (Double.natAbs_le_of_safe hk)]

end Exponents

variable {inputs : Inputs} {y : ℕ}

/-! ### Guards -/

theorem requireDivisor_eq_ok (hdivisor : inputs.mu.isZero = false) :
    requireDivisor inputs.mu = .ok () := by
  rw [requireDivisor, hdivisor]
  rfl

theorem c_eq_ok (hblock : 0 < inputs.blockSize + inputs.crcValue) :
    inputs.c = .ok (inputs.blockSize + inputs.crcValue) := by
  rw [c, blockTotal, if_neg (not_le.mpr hblock)]

theorem secretFraction_of_zero (hzero : inputs.mu.isZero = true) :
    inputs.secretFraction = .error (.field (.zeroDivisor inputs.mu.text)) := by
  rw [secretFraction, requireDivisor, if_pos hzero]
  rfl

theorem secretFraction_of_bad_hash (hdivisor : inputs.mu.isZero = false) {fault : Fault}
    (hhash : inputs.y = .error fault) : inputs.secretFraction = .error fault := by
  rw [secretFraction, requireDivisor_eq_ok hdivisor, hhash]
  rfl

theorem secretFraction_of_empty (hdivisor : inputs.mu.isZero = false) (hhash : inputs.y = .ok y)
    (hempty : inputs.blockSize + inputs.crcValue ≤ 0) :
    inputs.secretFraction = .error (.field (.emptyBlock inputs.blockSize inputs.crcValue)) := by
  rw [secretFraction, requireDivisor_eq_ok hdivisor, hhash, c, blockTotal, if_pos hempty]
  rfl

section Evaluable

variable (heval : inputs.Evaluable y)

include heval

theorem denominator_ne_zero : inputs.denominator ≠ 0 := by
  have hmu : inputs.mu.signedCoefficient ≠ 0 := by
    intro hzero
    rw [Decimal.signedCoefficient_eq_zero_iff heval.mu, heval.divisor] at hzero
    cases hzero
  exact mul_ne_zero hmu heval.block.ne'

theorem exactSecret_eq :
    inputs.exactSecret y
      = (inputs.numerator y : ℚ) / inputs.denominator * 10 ^ inputs.fractionExponent := by
  have hten : (10 : ℚ) ≠ 0 := by norm_num
  have hmu : (10 : ℚ) ^ inputs.mu.lastExponent ≠ 0 := zpow_ne_zero _ hten
  rw [exactSecret, Decimal.toRat_eq heval.pi, Decimal.toRat_eq heval.lambda,
    Decimal.toRat_eq heval.mu, numerator, denominator, fractionExponent, exponentSum,
    zpow_sub₀ hten, zpow_add₀ hten]
  push_cast
  field_simp

/-- With the guards passed, evaluation is one quotient of integers with their exponents, each of
them summed up from the left. -/
theorem secretFraction_eq_ofRatio {p l m : Fraction}
    (hp : Fraction.ofDecimal inputs.pi = .ok p) (hl : Fraction.ofDecimal inputs.lambda = .ok l)
    (hm : Fraction.ofDecimal inputs.mu = .ok m) :
    inputs.secretFraction = Fraction.ofRatio (inputs.numerator y) inputs.denominator
      (0 + p.exponent + 0 + l.exponent + 0) (0 + m.exponent + 0) := by
  obtain ⟨hpn, hpd, -⟩ := Fraction.ofDecimal_parts heval.pi hp
  obtain ⟨hln, hld, -⟩ := Fraction.ofDecimal_parts heval.lambda hl
  obtain ⟨hmn, hmd, -⟩ := Fraction.ofDecimal_parts heval.mu hm
  have hdivisor := requireDivisor_eq_ok heval.divisor
  have hblock := c_eq_ok heval.block
  have hnum := Fraction.product_four p (.ofInt y) l (.ofInt inputs.x) hpd rfl hld rfl
  have hden := Fraction.product_two m (.ofInt (inputs.blockSize + inputs.crcValue)) hmd rfl
  rw [Fraction.exponent_ofInt, Fraction.exponent_ofInt] at hnum
  rw [Fraction.exponent_ofInt] at hden
  simp only [secretFraction, hdivisor, heval.hash, hblock, hp, hl, hm, Outcome.ok_bind, hnum, hden,
    hpn, hln, hmn]
  rfl

theorem exists_secretFraction_eq :
    ∃ p l m : Double, inputs.secretFraction
        = Fraction.ofRatio (inputs.numerator y) inputs.denominator (0 + p + 0 + l + 0) (0 + m + 0)
      ∧ (inputs.ShortDecimals → p.toInt? = some inputs.pi.lastExponent
        ∧ l.toInt? = some inputs.lambda.lastExponent
        ∧ m.toInt? = some inputs.mu.lastExponent) := by
  obtain ⟨p, hp, -, -, hpe⟩ := Fraction.exists_ofDecimal heval.pi
  obtain ⟨l, hl, -, -, hle⟩ := Fraction.exists_ofDecimal heval.lambda
  obtain ⟨m, hm, -, -, hme⟩ := Fraction.exists_ofDecimal heval.mu
  exact ⟨p.exponent, l.exponent, m.exponent, secretFraction_eq_ofRatio heval hp hl hm,
    fun hshort => ⟨hpe hshort.pi, hle hshort.lambda, hme hshort.mu⟩⟩

/-- Evaluation on evaluable inputs fails for nothing but an exponent, and what it gives can be
turned into a decimal. -/
theorem secretFraction_cases :
    (∃ value, inputs.secretFraction = .ok value ∧ value.exponent.isSafeInteger = true)
      ∨ ∃ text, inputs.secretFraction = .error (.range (.unsafeExponent text)) := by
  obtain ⟨p, l, m, heq, -⟩ := exists_secretFraction_eq heval
  rw [heq]
  by_cases hsafe : (0 + p + 0 + l + 0).isSafeInteger = true ∧ (0 + m + 0).isSafeInteger = true
      ∧ ((0 + p + 0 + l + 0) - (0 + m + 0)).isSafeInteger = true
  · obtain ⟨ha, hb, hab⟩ := hsafe
    obtain ⟨value, hvalue, hbuilt⟩ :=
      Fraction.ofRatio_of_safe (inputs.numerator y) (denominator_ne_zero heval) _ _ ha hb hab
    exact .inl ⟨value, hvalue, hbuilt.exponent ▸ hab⟩
  · exact .inr (Fraction.ofRatio_of_not_safe _ (denominator_ne_zero heval) _ _ hsafe)

theorem secret_cases : (∃ value, inputs.secret = .ok value)
    ∨ ∃ text, inputs.secret = .error (.range (.unsafeExponent text)) := by
  rcases secretFraction_cases heval with ⟨value, hvalue, hsafe⟩ | ⟨text, hfault⟩
  · obtain ⟨x, hx⟩ := Fraction.exists_toDecimal hsafe
    exact .inl ⟨x, by rw [secret, hvalue, Outcome.ok_bind, hx]⟩
  · exact .inr ⟨text, by rw [secret, hfault]; rfl⟩

/-! ### Exponents -/

section ShortDecimals

variable (hshort : inputs.ShortDecimals)

include hshort

/-- With decimals of bounded length the guards on the exponents speak of the exact sums, and the
fraction is the quotient of the integers with the exact exponent. -/
theorem secretFraction_eq_make (hsum : |inputs.exponentSum| ≤ Double.maxSafe) :
    inputs.secretFraction = Fraction.make (inputs.numerator y) inputs.denominator
      (Double.ofInt inputs.fractionExponent) := by
  obtain ⟨p, l, m, heq, hparts⟩ := exists_secretFraction_eq heval
  obtain ⟨hp, hl, hm⟩ := hparts hshort
  have hmu := Decimal.abs_lastExponent_le heval.mu hshort.mu
  have ha : 0 + p + 0 + l + 0 = Double.ofInt inputs.exponentSum :=
    (factorExponent_spec hp hl (Decimal.abs_lastExponent_le heval.pi hshort.pi)).2 hsum
  have hasafe := (Double.isSafeInteger_ofInt inputs.exponentSum).mpr hsum
  have hbsafe := (Double.isSafeInteger_ofInt inputs.mu.lastExponent).mpr hmu
  rw [heq, ha, divisorExponent_eq hm hmu, Fraction.ofRatio, Fraction.make_one _ hasafe,
    Fraction.make_one _ hbsafe, Outcome.ok_bind, Outcome.ok_bind, Fraction.quotient, Nat.cast_one,
    mul_one, one_mul, Double.ofInt_sub (Double.natAbs_le_of_safe hsum)
      (Double.toInt?_ofInt (Double.natAbs_le_of_safe hmu))]
  rfl

theorem secretFraction_of_safe (hsum : |inputs.exponentSum| ≤ Double.maxSafe)
    (hexponent : |inputs.fractionExponent| ≤ Double.maxSafe) :
    ∃ value, inputs.secretFraction = .ok value
      ∧ value.ratio = (inputs.numerator y : ℚ) / inputs.denominator
      ∧ value.exponent.toInt? = some inputs.fractionExponent := by
  obtain ⟨value, hvalue, hbuilt⟩ := Fraction.make_of_safe (inputs.numerator y)
    (denominator_ne_zero heval) ((Double.isSafeInteger_ofInt inputs.fractionExponent).mpr hexponent)
  refine ⟨value, by rw [secretFraction_eq_make heval hshort hsum, hvalue], hbuilt.ratio, ?_⟩
  rw [hbuilt.exponent]
  exact Double.toInt?_ofInt (Double.natAbs_le_of_safe hexponent)

theorem secretFraction_of_not_safe
    (hnot : ¬ (|inputs.exponentSum| ≤ Double.maxSafe
      ∧ |inputs.fractionExponent| ≤ Double.maxSafe)) :
    ∃ text, inputs.secretFraction = .error (.range (.unsafeExponent text)) := by
  by_cases hsum : |inputs.exponentSum| ≤ Double.maxSafe
  · have hexponent : (Double.ofInt inputs.fractionExponent).isSafeInteger = false := by
      rw [← Bool.not_eq_true, Double.isSafeInteger_ofInt]
      exact fun hexponent => hnot ⟨hsum, hexponent⟩
    exact ⟨_, by rw [secretFraction_eq_make heval hshort hsum,
      Fraction.make_of_not_safe _ (denominator_ne_zero heval) hexponent]⟩
  · obtain ⟨p, l, m, heq, hparts⟩ := exists_secretFraction_eq heval
    obtain ⟨hp, hl, -⟩ := hparts hshort
    obtain ⟨hasafe, -⟩ :=
      factorExponent_spec hp hl (Decimal.abs_lastExponent_le heval.pi hshort.pi)
    rw [heq]
    exact Fraction.ofRatio_of_not_safe _ (denominator_ne_zero heval) _ _
      fun hsafe => hsum (hasafe.mp hsafe.1)

end ShortDecimals

section Bounded

variable (hbound : inputs.Bounded y)

include hbound

theorem digitCount_numerator_le :
    digitCount (inputs.numerator y).natAbs ≤ 4 * digitBound := by
  rw [numerator, Int.natAbs_mul, Int.natAbs_mul, Int.natAbs_mul, Int.natAbs_natCast]
  have hthree := digitCount_mul_le
    (inputs.pi.signedCoefficient.natAbs * y * inputs.lambda.signedCoefficient.natAbs)
    inputs.x.natAbs
  have htwo := digitCount_mul_le (inputs.pi.signedCoefficient.natAbs * y)
    inputs.lambda.signedCoefficient.natAbs
  have hone := digitCount_mul_le inputs.pi.signedCoefficient.natAbs y
  rw [Decimal.digitCount_signedCoefficient heval.pi] at hone
  rw [Decimal.digitCount_signedCoefficient heval.lambda] at htwo
  have := hbound.pi
  have := hbound.lambda
  have := hbound.x
  have := hbound.y
  omega

theorem digitCount_denominator_le :
    digitCount inputs.denominator.natAbs ≤ 2 * digitBound := by
  rw [denominator, Int.natAbs_mul]
  have hone := digitCount_mul_le inputs.mu.signedCoefficient.natAbs
    (inputs.blockSize + inputs.crcValue).natAbs
  rw [Decimal.digitCount_signedCoefficient heval.mu] at hone
  have := hbound.mu
  have := hbound.c
  omega

/-- The quotient of the integers is far inside the range of decimals. -/
theorem abs_log_round_ratio_le :
    |Int.log 10 (|roundSignificant Decimal.precision
        ((inputs.numerator y : ℚ) / inputs.denominator)|)| ≤ exponentLimit := by
  by_cases hnum : inputs.numerator y = 0
  · rw [hnum, Int.cast_zero, zero_div, roundSignificant_zero, abs_zero, Int.log_zero_right]
    decide
  have hden := denominator_ne_zero heval
  have hnumDigits := digitCount_numerator_le heval hbound
  have hdenDigits := digitCount_denominator_le heval hbound
  have hnumPos := digitCount_pos (inputs.numerator y).natAbs
  have hdenPos := digitCount_pos inputs.denominator.natAbs
  obtain ⟨hlow, hhigh⟩ := log_div_bounds (Int.natAbs_ne_zero.mpr hnum) (Int.natAbs_ne_zero.mpr hden)
  have habs : |(inputs.numerator y : ℚ) / inputs.denominator|
      = ((inputs.numerator y).natAbs : ℚ) / inputs.denominator.natAbs := by
    rw [abs_div, Nat.cast_natAbs, Nat.cast_natAbs, Int.cast_abs, Int.cast_abs]
  have hpos : 0 < |(inputs.numerator y : ℚ) / inputs.denominator| := by
    rw [abs_pos]
    exact div_ne_zero (by exact_mod_cast hnum) (by exact_mod_cast hden)
  obtain ⟨hroundLow, hroundHigh⟩ := log_roundSignificant_bounds
    (by decide : Decimal.precision ≠ 0) hpos
  rw [← abs_roundSignificant (by decide)] at hroundLow hroundHigh
  have hbounds : digitBound = 10 ^ 12 := rfl
  have hlimit : exponentLimit = 9000000000000000 := rfl
  rw [← habs] at hlow hhigh
  rw [hbounds] at hnumDigits hdenDigits
  rw [hlimit, abs_le]
  omega

/-- **The rounded exact value.** Nothing but the last exponent stands between the exact secret value
and the decimal that represents it. -/
theorem secret_represents (hsum : |inputs.exponentSum| ≤ Double.maxSafe)
    (hexponent : |inputs.fractionExponent| ≤ exponentLimit) :
    ∃ x, inputs.secret = .ok x
      ∧ x.Represents (roundSignificant Decimal.precision (inputs.exactSecret y)) := by
  obtain ⟨value, hvalue, hratio, hvalueExponent⟩ :=
    secretFraction_of_safe heval hbound.decimals hsum (hexponent.trans (by decide))
  have hrange := abs_log_round_ratio_le heval hbound
  rw [← hratio] at hrange
  obtain ⟨x, hx, hrepresents⟩ := Fraction.toDecimal_represents hvalueExponent hexponent hrange
  rw [hratio, ← exactSecret_eq heval] at hrepresents
  exact ⟨x, by rw [secret, hvalue, Outcome.ok_bind, hx], hrepresents⟩

end Bounded

end Evaluable

end Inputs

end AngleSeries
