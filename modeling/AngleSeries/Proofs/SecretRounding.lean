import AngleSeries.Proofs.HashTexts
import AngleSeries.Proofs.SecretValue

/-!
# One rounding, one text

Whatever is in range has the exact secret value, rounded once, and so inputs whose exact values
agree have the same secret value to the last digit. `Variation` lists the ways in which inputs can
differ without a change of the exact value: the factors trade places, integers grow by a common
factor, a hash or a decimal is spelled in another way.
-/

namespace AngleSeries

namespace Inputs

/-- Other inputs, with the number behind their hash, of the same exact secret value. -/
inductive Variation (inputs : Inputs) (y : ℕ) : Inputs → ℕ → Prop where
  | swap : Variation inputs y { inputs with pi := inputs.lambda, lambda := inputs.pi } y
  | scale (k : ℕ) (hk : 1 ≤ k) : Variation inputs y
      { inputs with
        x := k * inputs.x, blockSize := k * inputs.blockSize, crcValue := k * inputs.crcValue } y
  | scaleHash (k : ℕ) (hk : 1 ≤ k) (hashHex : Text) (hhash : Hash.parse hashHex = .ok (k * y))
      (blockSize crcValue : ℤ)
      (hsum : blockSize + crcValue = k * (inputs.blockSize + inputs.crcValue)) :
      Variation inputs y { inputs with hashHex, blockSize, crcValue } (k * y)
  | respell (hashHex : Text) (hvalid : Hash.isHash hashHex = true)
      (hsame : Hash.canonical hashHex = Hash.canonical inputs.hashHex) :
      Variation inputs y { inputs with hashHex } y
  | rewrite (pi lambda mu : Decimal)
      (hpi : pi.isFinite = true ∧ pi.toRat = inputs.pi.toRat)
      (hlambda : lambda.isFinite = true ∧ lambda.toRat = inputs.lambda.toRat)
      (hmu : mu.isFinite = true ∧ mu.toRat = inputs.mu.toRat) :
      Variation inputs y { inputs with pi, lambda, mu } y

variable {inputs others : Inputs} {y y' : ℕ}

namespace Variation

theorem div_eq_div_of_common {k a b c d : ℚ} (hk : k ≠ 0) (hc : c = k * a) (hd : d = k * b) :
    c / d = a / b := by
  rw [hc, hd, mul_div_mul_left _ _ hk]

theorem exactSecret_eq (hvary : inputs.Variation y others y') :
    others.exactSecret y' = inputs.exactSecret y := by
  cases hvary with
  | swap =>
      simp only [exactSecret]
      ring
  | scale k hk =>
      have hk0 : (k : ℚ) ≠ 0 := by exact_mod_cast (by omega : k ≠ 0)
      refine div_eq_div_of_common hk0 ?_ ?_ <;> push_cast <;> ring
  | scaleHash k hk hashHex hhash blockSize crcValue hsum =>
      have hk0 : (k : ℚ) ≠ 0 := by exact_mod_cast (by omega : k ≠ 0)
      simp only [exactSecret, hsum]
      refine div_eq_div_of_common hk0 ?_ ?_ <;> push_cast <;> ring
  | respell hashHex hvalid hsame => rfl
  | rewrite pi lambda mu hpi hlambda hmu =>
      simp only [exactSecret, hpi.2, hlambda.2, hmu.2]

theorem evaluable (hvary : inputs.Variation y others y') (heval : inputs.Evaluable y) :
    others.Evaluable y' := by
  cases hvary with
  | swap => exact { heval with pi := heval.lambda, lambda := heval.pi }
  | scale k hk =>
      refine { heval with block := ?_ }
      have hblock := mul_pos (by exact_mod_cast hk : (0 : ℤ) < k) heval.block
      rwa [mul_add] at hblock
  | scaleHash k hk hashHex hhash blockSize crcValue hsum =>
      refine { heval with hash := hhash, block := ?_ }
      have hblock := mul_pos (by exact_mod_cast hk : (0 : ℤ) < k) heval.block
      rwa [← hsum] at hblock
  | respell hashHex hvalid hsame =>
      refine { heval with hash := ?_ }
      have hparse := heval.hash
      rw [Inputs.y] at hparse ⊢
      rw [← hparse]
      exact Hash.parse_eq_of_canonical_eq hvalid (Hash.isHash_of_parse hparse) hsame
  | rewrite pi lambda mu hpi hlambda hmu =>
      refine { heval with pi := hpi.1, lambda := hlambda.1, mu := hmu.1, divisor := ?_ }
      rw [Decimal.isZero_eq_of_toRat_eq hmu.1 heval.mu hmu.2, heval.divisor]

theorem exponents_eq (hvary : inputs.Variation y others y') (heval : inputs.Evaluable y) :
    others.exponentSum = inputs.exponentSum
      ∧ others.fractionExponent = inputs.fractionExponent := by
  have hsame : others.exponentSum = inputs.exponentSum
      ∧ others.mu.lastExponent = inputs.mu.lastExponent := by
    cases hvary with
    | swap => exact ⟨add_comm _ _, rfl⟩
    | scale k hk => exact ⟨rfl, rfl⟩
    | scaleHash k hk hashHex hhash blockSize crcValue hsum => exact ⟨rfl, rfl⟩
    | respell hashHex hvalid hsame => exact ⟨rfl, rfl⟩
    | rewrite pi lambda mu hpi hlambda hmu =>
        refine ⟨?_, Decimal.lastExponent_eq_of_toRat_eq hmu.1 heval.mu hmu.2⟩
        rw [exponentSum, Decimal.lastExponent_eq_of_toRat_eq hpi.1 heval.pi hpi.2,
          Decimal.lastExponent_eq_of_toRat_eq hlambda.1 heval.lambda hlambda.2, exponentSum]
  refine ⟨hsame.1, ?_⟩
  rw [fractionExponent, hsame.1, hsame.2, fractionExponent]

theorem inRange (hvary : inputs.Variation y others y') (heval : inputs.Evaluable y)
    (hrange : inputs.InRange y) : others.InRange y' := by
  obtain ⟨hsum, hexponent⟩ := hvary.exponents_eq heval
  refine ⟨?_, ?_, ?_⟩
  · rw [hsum]
    exact hrange.sum
  · rw [hexponent]
    exact hrange.exponent
  · rw [hvary.exactSecret_eq]
    exact hrange.value

end Variation

/-- Equal exact values within the range have the same secret value. -/
theorem secret_eq_of_exactSecret_eq (heval : inputs.Evaluable y) (hbound : inputs.Bounded y)
    (hrange : inputs.InRange y) (heval' : others.Evaluable y') (hbound' : others.Bounded y')
    (hrange' : others.InRange y') (heq : others.exactSecret y' = inputs.exactSecret y) :
    others.secret = inputs.secret := by
  obtain ⟨x, hx, hrepresents⟩ := secret_represents heval hbound hrange.sum hrange.exponent
  obtain ⟨x', hx', hrepresents'⟩ := secret_represents heval' hbound' hrange'.sum hrange'.exponent
  rw [heq] at hrepresents'
  rw [hx, hx', hrepresents.unique hrepresents']

/-- **The secret value is correctly rounded.** It is the exact value with eighty significant digits,
halves to even; inputs of the same exact value have the same secret value, and every variation of
the inputs has it. -/
theorem secret_correctlyRounded (heval : inputs.Evaluable y) (hbound : inputs.Bounded y)
    (hrange : inputs.InRange y) :
    ∃ x, inputs.secret = .ok x ∧ x.isFinite = true
      ∧ x.toRat = roundSignificant Decimal.precision (inputs.exactSecret y)
      ∧ (∀ (others : Inputs) (y' : ℕ), others.Evaluable y' → others.Bounded y' → others.InRange y' →
        others.exactSecret y' = inputs.exactSecret y → others.secret = .ok x)
      ∧ ∀ (others : Inputs) (y' : ℕ), inputs.Variation y others y' → others.Bounded y' →
        others.exactSecret y' = inputs.exactSecret y ∧ others.secret = .ok x := by
  obtain ⟨x, hx, hrepresents⟩ := secret_represents heval hbound hrange.sum hrange.exponent
  obtain ⟨hfinite, hvalue⟩ := hrepresents.within hrange.value
  refine ⟨x, hx, hfinite, hvalue, ?_, ?_⟩
  · intro others y' heval' hbound' hrange' heq
    rw [secret_eq_of_exactSecret_eq heval hbound hrange heval' hbound' hrange' heq, hx]
  · intro others y' hvary hbound'
    refine ⟨hvary.exactSecret_eq, ?_⟩
    rw [secret_eq_of_exactSecret_eq heval hbound hrange (hvary.evaluable heval) hbound'
      (hvary.inRange heval hrange) hvary.exactSecret_eq, hx]

/-- Inputs whose exact secret value has no end. -/
def twoThirds : Inputs where
  pi := .ofInt 1
  lambda := .ofInt 1
  mu := .ofInt 3
  x := 2
  hashHex := "1"
  blockSize := 1
  crcValue := 0

theorem twoThirds_rounded : twoThirds.exactSecret 1 = 2 / 3
    ∧ ∃ x, twoThirds.secret = .ok x ∧ x.toRat = roundSignificant Decimal.precision (2 / 3) := by
  have heval : twoThirds.Evaluable 1 := by decide +kernel
  have hbound : twoThirds.Bounded 1 := by decide +kernel
  have hexact : twoThirds.exactSecret 1 = 2 / 3 := by decide +kernel
  have hexponents : twoThirds.exponentSum = 0 ∧ twoThirds.fractionExponent = 0 := by decide +kernel
  have hvalue := abs_log_round_ratio_le heval hbound
  have hplain := exactSecret_eq heval
  rw [hexponents.2, zpow_zero, mul_one] at hplain
  rw [← hplain] at hvalue
  have hrange : twoThirds.InRange 1 :=
    ⟨by rw [hexponents.1]; decide, by rw [hexponents.2]; decide, hvalue⟩
  obtain ⟨x, hx, -, hround, -⟩ := secret_correctlyRounded heval hbound hrange
  exact ⟨hexact, x, hx, hexact ▸ hround⟩

end Inputs

end AngleSeries
