import AngleSeries.Fraction.Reading
import AngleSeries.Proofs.DecimalValue
import AngleSeries.Proofs.WholeDoubles

/-!
# Fractions as numbers

A fraction is an exact quotient with a power of ten beside it. Building one fails only for a zero
denominator or an exponent that is no safe integer; otherwise nothing of the value is lost. On the
way back to a decimal the quotient is rounded and then multiplied by the power of ten. As long as
that power is itself a decimal the product needs no rounding of its own; a power that is out of
range turns every product into an infinity, no number at all or zero.
-/

namespace AngleSeries

open Numeral

/-- More digits than a text or an integer of a host program can have. -/
def digitBound : ℕ := 10 ^ 12

namespace Decimal

/-- The power of ten of the last significant digit; zero has its digit in the place of ones. -/
def lastExponent : Decimal → ℤ
  | .finite _ _ exponent _ => exponent
  | _ => 0

/-- How many significant digits there are. -/
def digitLength : Decimal → ℕ
  | .finite _ coefficient _ _ => digitCount coefficient
  | _ => 0

/-- All significant digits as one integer, with the sign. -/
def signedCoefficient : Decimal → ℤ
  | .finite negative coefficient _ _ => if negative then -(coefficient : ℤ) else coefficient
  | _ => 0

theorem toRat_eq {x : Decimal} (hx : x.isFinite = true) :
    x.toRat = x.signedCoefficient * 10 ^ x.lastExponent := by
  obtain ⟨negative, coefficient, exponent, normal, rfl⟩ := exists_of_isFinite hx
  rw [toRat_finite]
  cases negative <;> simp [signedCoefficient, lastExponent]

theorem digitCount_signedCoefficient {x : Decimal} (hx : x.isFinite = true) :
    digitCount x.signedCoefficient.natAbs = x.digitLength := by
  obtain ⟨negative, coefficient, exponent, normal, rfl⟩ := exists_of_isFinite hx
  cases negative <;> simp [signedCoefficient, digitLength]

theorem signedCoefficient_eq_zero_iff {x : Decimal} (hx : x.isFinite = true) :
    x.signedCoefficient = 0 ↔ x.isZero = true := by
  obtain ⟨negative, coefficient, exponent, normal, rfl⟩ := exists_of_isFinite hx
  cases negative <;> simp [signedCoefficient, isZero]

theorem toRat_eq_zero_iff_isZero {x : Decimal} (hx : x.isFinite = true) :
    x.toRat = 0 ↔ x.isZero = true := by
  rw [toRat_eq hx, mul_eq_zero, or_iff_left (zpow_ne_zero _ (by norm_num)), Int.cast_eq_zero,
    signedCoefficient_eq_zero_iff hx]

theorem abs_leadOf_le {coefficient : ℕ} {exponent : ℤ} (normal : Normal coefficient exponent) :
    |leadOf coefficient exponent| ≤ exponentLimit := by
  rcases normal with ⟨rfl, rfl⟩ | ⟨_, hlow, hhigh⟩
  · have hone : digitCount 0 = 1 := by rw [digitCount_eq_log, Nat.log_zero_right]
    rw [leadOf, hone]
    decide
  · exact abs_le.mpr ⟨hlow, hhigh⟩

theorem abs_lastExponent_le {x : Decimal} (hx : x.isFinite = true)
    (hdigits : x.digitLength < digitBound) : |x.lastExponent| ≤ Double.maxSafe := by
  obtain ⟨negative, coefficient, exponent, normal, rfl⟩ := exists_of_isFinite hx
  have hlead := abs_le.mp (abs_leadOf_le normal)
  have hcount : digitCount coefficient < 10 ^ 12 := hdigits
  have hpositive := digitCount_pos coefficient
  have hlimit : exponentLimit = 9000000000000000 := rfl
  have hmax : Double.maxSafe = 2 ^ 53 - 1 := rfl
  have hdef : leadOf coefficient exponent = exponent + digitCount coefficient - 1 := rfl
  rw [hlimit] at hlead
  change |exponent| ≤ _
  rw [abs_le, hmax]
  omega

theorem lastExponent_of_zero {x : Decimal} (hx : x.isFinite = true) (hzero : x.toRat = 0) :
    x.lastExponent = 0 := by
  obtain ⟨negative, coefficient, exponent, normal, rfl⟩ := exists_of_isFinite hx
  have hcoefficient := (toRat_eq_zero_iff negative coefficient exponent normal).mp hzero
  rcases normal with ⟨-, hexponent⟩ | ⟨hlast, -⟩
  · exact hexponent
  · exact absurd (by rw [hcoefficient]) hlast

/-- Finite decimals of one value differ at most in the sign of a zero. -/
theorem lastExponent_eq_of_toRat_eq {x y : Decimal} (hx : x.isFinite = true)
    (hy : y.isFinite = true) (heq : x.toRat = y.toRat) : x.lastExponent = y.lastExponent := by
  by_cases hzero : x.toRat = 0
  · rw [lastExponent_of_zero hx hzero, lastExponent_of_zero hy (heq ▸ hzero)]
  · rw [eq_of_toRat_eq hx hy hzero heq]

theorem isZero_eq_of_toRat_eq {x y : Decimal} (hx : x.isFinite = true) (hy : y.isFinite = true)
    (heq : x.toRat = y.toRat) : x.isZero = y.isZero := by
  rw [Bool.eq_iff_iff, ← toRat_eq_zero_iff_isZero hx, ← toRat_eq_zero_iff_isZero hy, heq]

end Decimal

namespace Fraction

/-- The quotient without its power of ten. -/
def ratio (value : Fraction) : ℚ :=
  (value.numerator : ℚ) / value.denominator

/-! ### Signs -/

theorem toRat_eq_mul (value : Fraction) :
    ∃ q : ℚ, 0 < q ∧ value.toRat = value.numerator * q := by
  have hd : (0 : ℚ) < value.denominator := by exact_mod_cast value.positive
  refine ⟨10 ^ value.exponent.toInt?.getD 0 / value.denominator, by positivity, ?_⟩
  rw [toRat]
  ring

theorem toRat_pos_iff {value : Fraction} : 0 < value.toRat ↔ 0 < value.numerator := by
  obtain ⟨q, hq, hvalue⟩ := toRat_eq_mul value
  rw [hvalue, mul_pos_iff_of_pos_right hq, Int.cast_pos]

theorem toRat_neg_iff {value : Fraction} : value.toRat < 0 ↔ value.numerator < 0 := by
  obtain ⟨q, hq, hvalue⟩ := toRat_eq_mul value
  rw [hvalue]
  constructor
  · intro hneg
    exact Int.cast_lt_zero.mp (neg_of_mul_neg_left hneg hq.le)
  · intro hneg
    exact mul_neg_of_neg_of_pos (Int.cast_lt_zero.mpr hneg) hq

theorem toRat_eq_zero_iff {value : Fraction} : value.toRat = 0 ↔ value.numerator = 0 := by
  obtain ⟨q, hq, hvalue⟩ := toRat_eq_mul value
  rw [hvalue, mul_eq_zero, or_iff_left hq.ne', Int.cast_eq_zero]

/-! ### Building fractions -/

/-- What building a fraction leaves of its parts. -/
structure Built (value : Fraction) (n d : ℤ) (e : Double) : Prop where
  ratio : value.ratio = (n : ℚ) / d
  exponent : value.exponent = e
  safe : e.isSafeInteger = true

theorem make_eq_ok_iff {n d : ℤ} {e : Double} {value : Fraction} :
    make n d e = .ok value ↔ d ≠ 0 ∧ e.isSafeInteger = true
      ∧ value.numerator = (if d < 0 then -n else n) ∧ value.denominator = d.natAbs
      ∧ value.exponent = e := by
  obtain ⟨numerator, denominator, exponent, hpositive⟩ := value
  rw [make]
  by_cases hd : d = 0
  · simp [hd]
  · cases hsafe : e.isSafeInteger
    · simp [hd]
    · simp only [hd, ↓reduceDIte, Bool.not_true, Bool.false_eq_true, ↓reduceIte, Except.ok.injEq,
        Fraction.mk.injEq, ne_eq, not_false_eq_true, true_and]
      simp only [eq_comm]

theorem make_of_safe (n : ℤ) {d : ℤ} (hd : d ≠ 0) {e : Double} (hsafe : e.isSafeInteger = true) :
    ∃ value, make n d e = .ok value ∧ Built value n d e := by
  refine ⟨⟨if d < 0 then -n else n, d.natAbs, e, Int.natAbs_pos.mpr hd⟩,
    make_eq_ok_iff.mpr ⟨hd, hsafe, rfl, rfl, rfl⟩, ?_, rfl, hsafe⟩
  rcases lt_or_gt_of_ne hd with hneg | hpos
  · simp only [Fraction.ratio, hneg, if_true, Nat.cast_natAbs, abs_of_neg hneg]
    push_cast
    rw [neg_div_neg_eq]
  · simp only [Fraction.ratio, hpos.not_gt, if_false, Nat.cast_natAbs, abs_of_pos hpos]

theorem make_of_not_safe (n : ℤ) {d : ℤ} (hd : d ≠ 0) {e : Double}
    (hnot : e.isSafeInteger = false) :
    make n d e = .error (.range (.unsafeExponent e.text)) := by
  rw [make, dif_neg hd, hnot]
  rfl

/-- Nothing changes over a positive denominator. -/
theorem make_of_pos (n : ℤ) {d : ℕ} (hd : 0 < d) {e : Double} (hsafe : e.isSafeInteger = true) :
    make n d e = .ok ⟨n, d, e, hd⟩ := by
  refine make_eq_ok_iff.mpr ⟨by exact_mod_cast hd.ne', hsafe, ?_, rfl, rfl⟩
  rw [if_neg (not_lt.mpr (Int.natCast_nonneg d))]

theorem make_one (n : ℤ) {e : Double} (hsafe : e.isSafeInteger = true) :
    make n 1 e = .ok ⟨n, 1, e, Nat.one_pos⟩ :=
  make_of_pos n Nat.one_pos hsafe

section Ratio

variable (n : ℤ) {d : ℤ} (hd : d ≠ 0) (a b : Double)

/-- The quotient of two integers with an exponent each. -/
def ofRatio (n d : ℤ) (a b : Double) : Except Fault Fraction := do
  let numerator ← make n 1 a
  let denominator ← make d 1 b
  quotient numerator denominator

include hd

theorem ofRatio_of_safe (ha : a.isSafeInteger = true) (hb : b.isSafeInteger = true)
    (hab : (a - b).isSafeInteger = true) :
    ∃ value, ofRatio n d a b = .ok value ∧ Built value n d (a - b) := by
  rw [ofRatio, make_one n ha, make_one d hb]
  change ∃ value, make (n * (1 : ℕ)) ((1 : ℕ) * d) (a - b) = .ok value ∧ _
  rw [Nat.cast_one, mul_one, one_mul]
  exact make_of_safe n hd hab

/-- Three exponents have to be safe. -/
theorem ofRatio_of_not_safe
    (hnot : ¬ (a.isSafeInteger = true ∧ b.isSafeInteger = true
      ∧ (a - b).isSafeInteger = true)) :
    ∃ text, ofRatio n d a b = .error (.range (.unsafeExponent text)) := by
  rw [ofRatio]
  cases ha : a.isSafeInteger with
  | false => exact ⟨_, by rw [make_of_not_safe n one_ne_zero ha]; rfl⟩
  | true =>
      cases hb : b.isSafeInteger with
      | false => exact ⟨_, by rw [make_one n ha, make_of_not_safe d one_ne_zero hb]; rfl⟩
      | true =>
          have hab : (a - b).isSafeInteger = false := by
            rw [← Bool.not_eq_true]
            exact fun hab => hnot ⟨ha, hb, hab⟩
          rw [make_one n ha, make_one d hb]
          change ∃ text, make (n * (1 : ℕ)) ((1 : ℕ) * d) (a - b) = .error _
          rw [Nat.cast_one, mul_one, one_mul]
          exact ⟨_, make_of_not_safe n hd hab⟩

end Ratio

/-! ### Products of integers -/

@[simp]
theorem exponent_ofInt (n : ℤ) : (ofInt n).exponent = 0 := rfl

theorem product_two (a b : Fraction) (ha : a.denominator = 1) (hb : b.denominator = 1) :
    product [a, b] = make (a.numerator * b.numerator) 1 (0 + a.exponent + b.exponent) := by
  simp only [product, List.foldl_cons, List.foldl_nil, ha, hb, one_mul, Nat.cast_one]

theorem product_four (a b c d : Fraction) (ha : a.denominator = 1) (hb : b.denominator = 1)
    (hc : c.denominator = 1) (hd : d.denominator = 1) :
    product [a, b, c, d] = make (a.numerator * b.numerator * c.numerator * d.numerator) 1
      (0 + a.exponent + b.exponent + c.exponent + d.exponent) := by
  simp only [product, List.foldl_cons, List.foldl_nil, ha, hb, hc, hd, one_mul, Nat.cast_one]

/-- A finite decimal is a fraction over one. -/
theorem exists_ofDecimal {x : Decimal} (hx : x.isFinite = true) :
    ∃ value, ofDecimal x = .ok value ∧ value.numerator = x.signedCoefficient
      ∧ value.denominator = 1
      ∧ (x.digitLength < digitBound → value.exponent.toInt? = some x.lastExponent) := by
  obtain ⟨negative, coefficient, exponent, normal, rfl⟩ := Decimal.exists_of_isFinite hx
  refine ⟨_, rfl, rfl, rfl, fun hlength => ?_⟩
  have hlead := abs_le.mp (Decimal.abs_leadOf_le normal)
  have hcount : digitCount coefficient < 10 ^ 12 := hlength
  have hpositive := digitCount_pos coefficient
  have hlimit : exponentLimit = 9000000000000000 := rfl
  have hdef : leadOf coefficient exponent = exponent + digitCount coefficient - 1 := rfl
  rw [hlimit] at hlead
  have hleft : (Double.ofInt (leadOf coefficient exponent)).toInt?
      = some (leadOf coefficient exponent) := Double.toInt?_ofInt (by omega)
  have hright : (Double.ofNat (digitCount coefficient - 1)).toInt?
      = some ((digitCount coefficient - 1 : ℕ) : ℤ) := by
    rw [Double.ofNat]
    exact Double.toInt?_ofInt (by omega)
  have hvalue : leadOf coefficient exponent - ((digitCount coefficient - 1 : ℕ) : ℤ)
      = exponent := by omega
  have hsub := Double.toInt?_sub hleft hright (by omega)
  rw [hvalue] at hsub
  exact hsub

theorem ofDecimal_parts {x : Decimal} (hx : x.isFinite = true) {value : Fraction}
    (hvalue : ofDecimal x = .ok value) : value.numerator = x.signedCoefficient
      ∧ value.denominator = 1
      ∧ (x.digitLength < digitBound → value.exponent.toInt? = some x.lastExponent) := by
  obtain ⟨found, hfound, hparts⟩ := exists_ofDecimal hx
  cases hvalue.symm.trans hfound
  exact hparts

/-! ### Back to decimals -/

theorem represents_powerOfTen (n : ℤ) : (Decimal.ofScaled false 1 n).Represents (10 ^ n) := by
  have hone := Decimal.represents_ofScaled false one_ne_zero n
  simpa using hone

theorem log_abs_zpow (n : ℤ) : Int.log 10 |(10 : ℚ) ^ n| = n := by
  rw [abs_of_pos (by positivity)]
  have := Int.log_zpow (R := ℚ) (b := 10) (by decide) n
  exact_mod_cast this

/-- A safe exponent always has its power of ten, be it as an infinity or as zero. -/
theorem powerOfTen_eq {exponent : Double} {n : ℤ} (hn : exponent.toInt? = some n)
    (hsafe : |n| ≤ Double.maxSafe) : powerOfTen exponent = .ok (Decimal.ofScaled false 1 n) := by
  have hmax : Double.maxSafe = 2 ^ 53 - 1 := rfl
  have hbound := abs_le.mp hsafe
  rw [powerOfTen, hn]
  simp only
  rw [if_pos (by omega)]

theorem toDecimal_eq {value : Fraction} {n : ℤ} (hn : value.exponent.toInt? = some n)
    (hsafe : |n| ≤ Double.maxSafe) :
    value.toDecimal = .ok (if n = 0 then Decimal.quotient value.numerator value.denominator
      else Decimal.quotient value.numerator value.denominator * Decimal.ofScaled false 1 n) := by
  rw [toDecimal]
  by_cases hzero : n = 0
  · rw [if_pos ((Double.isZero_iff hn).mpr hzero), if_pos hzero]
  · rw [if_neg (mt (Double.isZero_iff hn).mp hzero), if_neg hzero, powerOfTen_eq hn hsafe]
    rfl

theorem exists_toDecimal {value : Fraction} (hsafe : value.exponent.isSafeInteger = true) :
    ∃ x, value.toDecimal = .ok x := by
  obtain ⟨n, hn, hbound⟩ := Double.exists_of_isSafeInteger hsafe
  exact ⟨_, toDecimal_eq hn hbound⟩

theorem represents_quotient (value : Fraction) :
    (Decimal.quotient value.numerator value.denominator).Represents
      (roundSignificant Decimal.precision value.ratio) :=
  Decimal.represents_quotient _ value.positive.ne'

variable {value : Fraction} {n : ℤ}

/-- **One rounding.** The quotient is rounded, and the power of ten then moves the point of what
was rounded, which leaves nothing for the product to round. -/
theorem toDecimal_represents (hn : value.exponent.toInt? = some n) (hlimit : |n| ≤ exponentLimit)
    (hrange : |Int.log 10 (|roundSignificant Decimal.precision value.ratio|)| ≤ exponentLimit) :
    ∃ x, value.toDecimal = .ok x
      ∧ x.Represents (roundSignificant Decimal.precision (value.ratio * 10 ^ n)) := by
  have hsafe : |n| ≤ Double.maxSafe := hlimit.trans (by decide)
  have hquotient := represents_quotient value
  refine ⟨_, toDecimal_eq hn hsafe, ?_⟩
  by_cases hzero : n = 0
  · rw [if_pos hzero, hzero, zpow_zero, mul_one]
    exact hquotient
  rw [if_neg hzero]
  obtain ⟨hfinite, hvalue⟩ := hquotient.within hrange
  obtain ⟨hpowFinite, hpow⟩ := (represents_powerOfTen n).within (by rwa [log_abs_zpow])
  by_cases hratio : value.ratio = 0
  · have hpositive : 0 < (Decimal.ofScaled false 1 n).toRat := by
      rw [hpow]
      positivity
    rw [hquotient.zero (by rw [hratio, roundSignificant_zero]), hratio, zero_mul,
      roundSignificant_zero, Decimal.signedZero_mul_of_pos hpowFinite hpositive]
    exact Decimal.represents_signedZero
  · have hproduct := Decimal.represents_mul hfinite hpowFinite (by
      rw [hvalue, hpow]
      exact mul_ne_zero (roundSignificant_ne_zero (by decide) hratio) (by positivity))
    rwa [hvalue, hpow, roundSignificant_mul_zpow, roundSignificant_idem (by decide),
      ← roundSignificant_mul_zpow] at hproduct

/-- A power of ten above the range makes an infinity of a number, or no number at all. -/
theorem toDecimal_of_above (hn : value.exponent.toInt? = some n) (hsafe : |n| ≤ Double.maxSafe)
    (habove : exponentLimit < n) : ∃ x, value.toDecimal = .ok x ∧ x.isFinite = false := by
  have hpow := (represents_powerOfTen n).above (by rwa [log_abs_zpow])
  have hzero : n ≠ 0 := ((by decide : (0 : ℤ) < exponentLimit).trans habove).ne'
  rw [toDecimal_eq hn hsafe, if_neg hzero, hpow]
  exact ⟨_, rfl, Decimal.isFinite_mul_infinite _ _⟩

/-- A power of ten below the range makes zero of every number. -/
theorem toDecimal_of_below (hn : value.exponent.toInt? = some n) (hsafe : |n| ≤ Double.maxSafe)
    (hbelow : n < -exponentLimit)
    (hrange : |Int.log 10 (|roundSignificant Decimal.precision value.ratio|)| ≤ exponentLimit) :
    ∃ x, value.toDecimal = .ok x ∧ x.isFinite = true ∧ x.toRat = 0 := by
  have hpow := (represents_powerOfTen n).below (by rwa [log_abs_zpow])
  have hzero : n ≠ 0 := (hbelow.trans (by decide : -exponentLimit < 0)).ne
  obtain ⟨hfinite, -⟩ := (represents_quotient value).within hrange
  obtain ⟨sign, hproduct⟩ := Decimal.mul_signedZero hfinite (decide ((10 : ℚ) ^ n < 0))
  rw [toDecimal_eq hn hsafe, if_neg hzero, hpow, hproduct]
  exact ⟨_, rfl, Decimal.isFinite_signedZero _, Decimal.toRat_signedZero _⟩

end Fraction

end AngleSeries
