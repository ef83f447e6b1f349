import AngleSeries.Proofs.HashTexts
import AngleSeries.Proofs.SecretValue

/-!
# The exact secret value, or the first thing that is wrong

Evaluation looks at the divisor, the hash, the block and the exponents, in this order, and reports
the first of them that is not as it should be. If nothing is wrong it gives the exact secret value,
and gives it in the very form that the exact ratio has after the three integers are brought in.
-/

namespace AngleSeries

namespace Fraction

theorem make_natAbs (n d : ℤ) (e : Double) :
    make (if d < 0 then -n else n) d.natAbs e = make n d e := by
  have hzero : ((d.natAbs : ℕ) : ℤ) = 0 ↔ d = 0 := by rw [Int.natCast_eq_zero, Int.natAbs_eq_zero]
  have hpos : ¬ ((d.natAbs : ℕ) : ℤ) < 0 := not_lt.mpr (Int.natCast_nonneg _)
  simp only [make, hzero, hpos, if_false, Int.natAbs_natCast]

theorem product_three (a : Fraction) (m n : ℤ) :
    product [a, ofInt m, ofInt n]
      = make (a.numerator * m * n) a.denominator (0 + a.exponent + 0 + 0) := by
  simp only [product, ofInt, List.foldl_cons, List.foldl_nil, one_mul, mul_one]

/-- Integers can be brought in before a fraction is built or afterwards. -/
theorem scaled_eq_make {n d i : ℤ} {value : Fraction}
    (hvalue : make n d (Double.ofInt i) = .ok value) (hi : |i| ≤ Double.maxSafe) (y x : ℤ) {c : ℤ} (hc : 0 < c) :
    (product [value, ofInt y, ofInt x] >>= fun top => quotient top (ofInt c))
      = make (n * y * x) (d * c) (Double.ofInt i) := by
  obtain ⟨-, hsafe, hnumerator, hdenominator, hexponent⟩ := make_eq_ok_iff.mp hvalue
  have hwhole := Double.natAbs_le_of_safe hi
  have hsum : 0 + value.exponent + 0 + 0 = Double.ofInt i := by
    rw [hexponent, Double.zero_add_eq_ofInt (Double.toInt?_ofInt hwhole),
      Double.ofInt_add_zero hwhole, Double.ofInt_add_zero hwhole]
  -- As `c` is positive, the sign changes places at the same time in both.
  have hneg : d * c < 0 ↔ d < 0 :=
    ⟨fun h => neg_of_mul_neg_left h hc.le, fun h => mul_neg_of_neg_of_pos h hc⟩
  have hsign : (if d * c < 0 then -(n * y * x) else n * y * x) = value.numerator * y * x := by
    simp only [hneg, hnumerator]
    split_ifs <;> ring
  have hden : ((d * c).natAbs : ℤ) = value.denominator * c := by
    rw [Int.natAbs_mul, ← hdenominator, Int.natCast_mul, Int.natAbs_of_nonneg hc.le]
  calc (product [value, ofInt y, ofInt x] >>= fun top => quotient top (ofInt c))
      = make (value.numerator * y * x * (1 : ℕ)) (value.denominator * c)
          (Double.ofInt i - 0) := by
        rw [product_three, hsum, make_of_pos _ value.positive hsafe, Outcome.ok_bind]
        rfl
    _ = make (value.numerator * y * x) (value.denominator * c) (Double.ofInt i) := by
        rw [Double.ofInt_sub_zero hwhole, Nat.cast_one, mul_one]
    _ = make (n * y * x) (d * c) (Double.ofInt i) := by
        rw [← hsign, ← hden, make_natAbs]

end Fraction

namespace Inputs

variable {inputs : Inputs} {y : ℕ}

/-- The secret value by way of the exact ratio. -/
def throughRatio (inputs : Inputs) : Except Fault Fraction := do
  let ratio ← inputs.ratioFraction
  let y ← inputs.y
  let c ← inputs.c
  let numerator ← Fraction.product [ratio, Fraction.ofInt y, Fraction.ofInt inputs.x]
  Fraction.quotient numerator (Fraction.ofInt c)

/-- The exponents on the way to the exact fraction are safe integers. -/
structure SafeExponents (inputs : Inputs) : Prop where
  sum : |inputs.exponentSum| ≤ Double.maxSafe
  exponent : |inputs.fractionExponent| ≤ Double.maxSafe

section Evaluable

variable (heval : inputs.Evaluable y)

include heval

/-- The ratio of decimals whose exponents add up to a safe integer. -/
theorem ratioFraction_of_safe_sum {p l m : Fraction} (hp : Fraction.ofDecimal inputs.pi = .ok p)
    (hl : Fraction.ofDecimal inputs.lambda = .ok l) (hm : Fraction.ofDecimal inputs.mu = .ok m)
    (hsum : (0 + p.exponent + l.exponent).isSafeInteger = true) :
    inputs.ratioFraction
      = Fraction.make (inputs.pi.signedCoefficient * inputs.lambda.signedCoefficient)
        inputs.mu.signedCoefficient (0 + p.exponent + l.exponent - m.exponent) := by
  obtain ⟨hpn, hpd, -⟩ := Fraction.ofDecimal_parts heval.pi hp
  obtain ⟨hln, hld, -⟩ := Fraction.ofDecimal_parts heval.lambda hl
  obtain ⟨hmn, hmd, -⟩ := Fraction.ofDecimal_parts heval.mu hm
  have hproduct : Fraction.product [p, l]
      = .ok ⟨p.numerator * l.numerator, 1, 0 + p.exponent + l.exponent, Nat.one_pos⟩ := by
    rw [Fraction.product_two p l hpd hld, Fraction.make_one _ hsum]
  simp only [ratioFraction, ratioOf, requireDivisor_eq_ok heval.divisor, hp, hl, hm,
    Outcome.ok_bind, hproduct, Fraction.quotient, hpn, hln, hmn, hmd, Nat.cast_one, mul_one,
    one_mul]

variable (hshort : inputs.ShortDecimals)

include hshort

theorem ratioFraction_eq_make (hsum : |inputs.exponentSum| ≤ Double.maxSafe) :
    inputs.ratioFraction
      = Fraction.make (inputs.pi.signedCoefficient * inputs.lambda.signedCoefficient)
        inputs.mu.signedCoefficient (Double.ofInt inputs.fractionExponent) := by
  obtain ⟨p, hp, -, -, hpe⟩ := Fraction.exists_ofDecimal heval.pi
  obtain ⟨l, hl, -, -, hle⟩ := Fraction.exists_ofDecimal heval.lambda
  obtain ⟨m, hm, -, -, hme⟩ := Fraction.exists_ofDecimal heval.mu
  have hpi := Decimal.abs_lastExponent_le heval.pi hshort.pi
  have hexponent : 0 + p.exponent + l.exponent = Double.ofInt inputs.exponentSum := by
    rw [Double.zero_add_eq_ofInt (hpe hshort.pi),
      Double.ofInt_add (Double.natAbs_le_of_safe hpi) (hle hshort.lambda), exponentSum]
  have hsafe : (0 + p.exponent + l.exponent).isSafeInteger = true := by
    rw [hexponent]
    exact (Double.isSafeInteger_ofInt _).mpr hsum
  rw [ratioFraction_of_safe_sum heval hp hl hm hsafe, hexponent,
    Double.ofInt_sub (Double.natAbs_le_of_safe hsum) (hme hshort.mu), fractionExponent]

theorem throughRatio_eq (hsafe : inputs.SafeExponents) :
    inputs.throughRatio = inputs.secretFraction := by
  have hmu : inputs.mu.signedCoefficient ≠ 0 := left_ne_zero_of_mul (denominator_ne_zero heval)
  obtain ⟨ratio, hratio, -⟩ := Fraction.make_of_safe
    (inputs.pi.signedCoefficient * inputs.lambda.signedCoefficient) hmu
    ((Double.isSafeInteger_ofInt inputs.fractionExponent).mpr hsafe.exponent)
  have hnumerator : inputs.pi.signedCoefficient * inputs.lambda.signedCoefficient * y * inputs.x
      = inputs.numerator y := by
    rw [numerator]
    ring
  rw [throughRatio, ratioFraction_eq_make heval hshort hsafe.sum, hratio, Outcome.ok_bind,
    heval.hash, Outcome.ok_bind, c_eq_ok heval.block, Outcome.ok_bind,
    Fraction.scaled_eq_make hratio hsafe.exponent _ _ heval.block, hnumerator,
    secretFraction_eq_make heval hshort hsafe.sum, denominator]

theorem secretFraction_exact (hsafe : inputs.SafeExponents) :
    ∃ value, inputs.secretFraction = .ok value ∧ value.toRat = inputs.exactSecret y := by
  obtain ⟨value, hvalue, hratio, hexponent⟩ :=
    secretFraction_of_safe heval hshort hsafe.sum hsafe.exponent
  refine ⟨value, hvalue, ?_⟩
  rw [Fraction.toRat, hexponent, exactSecret_eq heval, ← hratio]
  rfl

end Evaluable

/-- What evaluation comes to, by the first thing that is wrong. -/
inductive Settles (inputs : Inputs) : Except Fault Fraction → Prop where
  | divisor (received : Text) (hzero : inputs.mu.toRat = 0) :
      Settles inputs (.error (.field (.zeroDivisor received)))
  | hash (flaw : HashFlaw) (hdivisor : inputs.mu.toRat ≠ 0)
      (hnone : ¬ ∃ digits, Hash.Spells inputs.hashHex.chars digits) :
      Settles inputs (.error (.field (.badHash inputs.hashHex flaw)))
  | block (digits : List Char) (hdivisor : inputs.mu.toRat ≠ 0)
      (hdigits : Hash.Spells inputs.hashHex.chars digits)
      (hempty : inputs.blockSize + inputs.crcValue ≤ 0) :
      Settles inputs (.error (.field (.emptyBlock inputs.blockSize inputs.crcValue)))
  | exponents (fault : RangeFault) (digits : List Char) (hdivisor : inputs.mu.toRat ≠ 0)
      (hdigits : Hash.Spells inputs.hashHex.chars digits)
      (hblock : 0 < inputs.blockSize + inputs.crcValue) (hbeyond : ¬ inputs.SafeExponents) :
      Settles inputs (.error (.range fault))
  | exact (value : Fraction) (digits : List Char) (hdivisor : inputs.mu.toRat ≠ 0)
      (hdigits : Hash.Spells inputs.hashHex.chars digits)
      (hblock : 0 < inputs.blockSize + inputs.crcValue) (hsafe : inputs.SafeExponents)
      (hvalue : value.toRat = inputs.exactSecret (Numeral.ofDigits 16 digits))
      (hratio : inputs.throughRatio = .ok value) :
      Settles inputs (.ok value)

section Finite

variable (hpi : inputs.pi.isFinite = true) (hlambda : inputs.lambda.isFinite = true)
  (hmu : inputs.mu.isFinite = true) (hshort : inputs.ShortDecimals)

include hpi hlambda hmu hshort

theorem settles_secretFraction : inputs.Settles inputs.secretFraction := by
  by_cases hzero : inputs.mu.toRat = 0
  · rw [secretFraction_of_zero ((Decimal.toRat_eq_zero_iff_isZero hmu).mp hzero)]
    exact .divisor _ hzero
  have hdivisor : inputs.mu.isZero = false := by
    rwa [Decimal.toRat_eq_zero_iff_isZero hmu, Bool.not_eq_true] at hzero
  rcases Hash.parse_cases inputs.hashHex with
    ⟨y, digits, hparse, hdigits, rfl⟩ | ⟨flaw, hparse, hnone⟩
  swap
  · rw [secretFraction_of_bad_hash hdivisor hparse]
    exact .hash flaw hzero hnone
  by_cases hempty : inputs.blockSize + inputs.crcValue ≤ 0
  · rw [secretFraction_of_empty hdivisor hparse hempty]
    exact .block digits hzero hdigits hempty
  have hblock := not_le.mp hempty
  have heval : inputs.Evaluable (Numeral.ofDigits 16 digits) :=
    ⟨hpi, hlambda, hmu, hdivisor, hparse, hblock⟩
  by_cases hsafe : inputs.SafeExponents
  · obtain ⟨value, hvalue, hexact⟩ := secretFraction_exact heval hshort hsafe
    have hratio := throughRatio_eq heval hshort hsafe
    rw [hvalue] at hratio ⊢
    exact .exact value digits hzero hdigits hblock hsafe hexact hratio
  · obtain ⟨text, hfault⟩ :=
      secretFraction_of_not_safe heval hshort fun h => hsafe ⟨h.1, h.2⟩
    rw [hfault]
    exact .exponents _ digits hzero hdigits hblock hsafe

/-- **The first flaw, or the exact value.** A zero divisor is reported whatever else is wrong, then a
text that is no hash, an empty block, and an exponent that is not safe. Otherwise there is a fraction
with the exact value, the one that the exact ratio leads to. -/
theorem secretFraction_settled :
    ((∃ received, inputs.secretFraction = .error (.field (.zeroDivisor received)))
        ↔ inputs.mu.toRat = 0)
      ∧ (inputs.mu.toRat ≠ 0 →
        ((∃ text flaw, inputs.secretFraction = .error (.field (.badHash text flaw)))
          ↔ ¬ ∃ digits, Hash.Spells inputs.hashHex.chars digits)
        ∧ ∀ digits, Hash.Spells inputs.hashHex.chars digits →
          ((∃ blockSize crcValue,
              inputs.secretFraction = .error (.field (.emptyBlock blockSize crcValue)))
            ↔ inputs.blockSize + inputs.crcValue ≤ 0)
          ∧ (0 < inputs.blockSize + inputs.crcValue →
            ((∃ fault, inputs.secretFraction = .error (.range fault)) ↔ ¬ inputs.SafeExponents)
            ∧ (inputs.SafeExponents →
              ∃ value, inputs.secretFraction = .ok value ∧ 0 < value.denominator
                ∧ value.toRat = inputs.exactSecret (Numeral.ofDigits 16 digits))))
      ∧ ∀ value, inputs.secretFraction = .ok value → inputs.throughRatio = .ok value := by
  have hsettles := settles_secretFraction hpi hlambda hmu hshort
  generalize inputs.secretFraction = outcome at hsettles ⊢
  cases hsettles with
  | divisor received hzero => simp [hzero]
  | hash flaw hdivisor hnone =>
      refine ⟨by simp [hdivisor], fun _ => ⟨by simpa using hnone, ?_⟩, by simp⟩
      exact fun digits hdigits => absurd ⟨digits, hdigits⟩ hnone
  | block spelled hdivisor hspelled hempty =>
      refine ⟨by simp [hdivisor], fun _ => ⟨by simpa using ⟨spelled, hspelled⟩, ?_⟩, by simp⟩
      exact fun _ _ => ⟨by simp [hempty], fun hblock => absurd hempty hblock.not_ge⟩
  | exponents fault spelled hdivisor hspelled hblock hbeyond =>
      refine ⟨by simp [hdivisor], fun _ => ⟨by simpa using ⟨spelled, hspelled⟩, ?_⟩, by simp⟩
      intro digits _
      exact ⟨by simp [hblock], fun _ => ⟨by simp [hbeyond], fun hsafe => absurd hsafe hbeyond⟩⟩
  | exact value spelled hdivisor hspelled hblock hsafe hvalue hratio =>
      refine ⟨by simp [hdivisor], fun _ => ⟨by simpa using ⟨spelled, hspelled⟩, ?_⟩, ?_⟩
      · intro digits hdigits
        refine ⟨by simp [hblock], fun _ => ⟨by simp [hsafe], fun _ => ?_⟩⟩
        refine ⟨value, rfl, value.positive, ?_⟩
        rw [hvalue, ← hspelled.digits_eq, hdigits.digits_eq]
      · intro found hfound
        rw [hratio, hfound]

end Finite

/-- Inputs with a negative divisor, and a hash with all that a hash may have around it. -/
def mirrored : Inputs where
  pi := .ofInt 3
  lambda := .ofInt 2
  mu := .ofInt (-4)
  x := 5
  hashHex := " 0X01f "
  blockSize := 20
  crcValue := 5

theorem mirrored_settled :
    mirrored.pi.isFinite = true ∧ mirrored.lambda.isFinite = true ∧ mirrored.mu.isFinite = true
      ∧ mirrored.ShortDecimals
      ∧ ∃ value, mirrored.secretFraction = .ok value ∧ mirrored.throughRatio = .ok value
        ∧ value.toRat = -93 / 10 := by
  have hpi : mirrored.pi.isFinite = true := by decide +kernel
  have hlambda : mirrored.lambda.isFinite = true := by decide +kernel
  have hmu : mirrored.mu.isFinite = true := by decide +kernel
  have hshort : mirrored.ShortDecimals :=
    ⟨by decide +kernel, by decide +kernel, by decide +kernel⟩
  have hblank : Text.AllBlank [' '] := by
    intro c hc
    rw [List.mem_singleton.mp hc]
    decide
  have hdigits : Hash.Spells mirrored.hashHex.chars ['0', '1', 'f'] :=
    ⟨⟨[' '], ['0', 'X'], [' '], by decide +kernel, hblank, hblank, .inr (.inr rfl)⟩,
      by decide, by decide⟩
  obtain ⟨-, hrest, hratio⟩ := secretFraction_settled hpi hlambda hmu hshort
  obtain ⟨-, hhash⟩ := hrest (by decide +kernel)
  obtain ⟨-, hblock⟩ := hhash _ hdigits
  obtain ⟨value, hvalue, -, hexact⟩ := (hblock (by decide)).2 ⟨by decide +kernel, by decide +kernel⟩
  exact ⟨hpi, hlambda, hmu, hshort, value, hvalue, hratio value hvalue,
    hexact.trans (by decide +kernel)⟩

end Inputs

end AngleSeries
