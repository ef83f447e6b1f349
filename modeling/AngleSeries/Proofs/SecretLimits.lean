import AngleSeries.Proofs.Acceptance
import AngleSeries.Proofs.SecretValue

/-!
# Where the secret value is lost

Acceptance promises that the transform is defined, not that its value survives the way through
binary64 exponents and a power of ten that has to be a decimal by itself. The secret value is sound
if it is a finite decimal with the sign that its inputs ask for. `WithinLimits` says when that is:
both exponents are safe, and the last one is that of a decimal even if the product is zero, or else
zero is multiplied by an infinity.
-/

namespace AngleSeries

namespace Inputs

/-- Inputs that came through one of the two doors. -/
inductive Accepted : Inputs → Prop where
  | created {draft : Draft} {inputs : Inputs} (hok : create draft = .ok inputs) : Accepted inputs
  | configured {payload : Value} {reading : Reading Config}
      (hok : Config.validate payload = .ok reading) : Accepted reading.value.inputs

/-- The secret value is a finite decimal, of the sign that the inputs ask for and zero only if they
do. -/
def Sound (inputs : Inputs) (y : ℕ) : Prop :=
  ∃ x, inputs.secret = .ok x ∧ x.isFinite = true
    ∧ SignType.sign x.toRat
      = SignType.sign (inputs.pi.toRat * inputs.lambda.toRat * inputs.x * y / inputs.mu.toRat)

/-- No exponent on the way to the secret value leaves its range. -/
structure WithinLimits (inputs : Inputs) (y : ℕ) : Prop where
  sum : |inputs.exponentSum| ≤ Double.maxSafe
  exponent : |inputs.fractionExponent| ≤ Double.maxSafe
  zero : inputs.exactSecret y = 0 → inputs.fractionExponent ≤ exponentLimit
  range : inputs.exactSecret y ≠ 0 → |inputs.fractionExponent| ≤ exponentLimit
    ∧ |Int.log 10 (|roundSignificant Decimal.precision (inputs.exactSecret y)|)| ≤ exponentLimit

variable {inputs : Inputs} {y : ℕ}

theorem Accepted.evaluable (haccepted : inputs.Accepted) : ∃ y, inputs.Evaluable y := by
  cases haccepted with
  | created hok => exact create_evaluable hok
  | configured hok => exact (Config.validate_valid hok).inputs

section Evaluable

variable (heval : inputs.Evaluable y)

include heval

theorem sign_exactSecret : SignType.sign (inputs.exactSecret y)
    = SignType.sign (inputs.pi.toRat * inputs.lambda.toRat * inputs.x * y / inputs.mu.toRat) := by
  have hblock : (0 : ℚ) < (inputs.blockSize + inputs.crcValue : ℤ) := by
    exact_mod_cast heval.block
  have hfactor : inputs.exactSecret y
      = inputs.pi.toRat * inputs.lambda.toRat * inputs.x * y / inputs.mu.toRat
        * (1 / (inputs.blockSize + inputs.crcValue : ℤ)) := by
    rw [exactSecret]
    ring
  rw [hfactor, sign_mul, sign_pos (one_div_pos.mpr hblock), mul_one]

theorem sound_iff_sign {x : Decimal} (hx : inputs.secret = .ok x) :
    inputs.Sound y ↔ x.isFinite = true
      ∧ SignType.sign x.toRat = SignType.sign (inputs.exactSecret y) := by
  rw [Sound, hx, sign_exactSecret heval]
  simp

variable (hbound : inputs.Bounded y)

include hbound

/-- A power of ten that overflows leaves no finite value, not even of zero. -/
theorem not_sound_of_above (hsum : |inputs.exponentSum| ≤ Double.maxSafe)
    (hexponent : |inputs.fractionExponent| ≤ Double.maxSafe)
    (habove : exponentLimit < inputs.fractionExponent) : ¬ inputs.Sound y := by
  obtain ⟨value, hvalue, -, hvalueExponent⟩ :=
    secretFraction_of_safe heval hbound.decimals hsum hexponent
  obtain ⟨x, hx, hinfinite⟩ := Fraction.toDecimal_of_above hvalueExponent hexponent habove
  have hsecret : inputs.secret = .ok x := by rw [secret, hvalue, Outcome.ok_bind, hx]
  rw [sound_iff_sign heval hsecret, hinfinite]
  simp

/-- A power of ten that underflows takes every value to zero. -/
theorem sound_iff_of_below (hsum : |inputs.exponentSum| ≤ Double.maxSafe)
    (hexponent : |inputs.fractionExponent| ≤ Double.maxSafe)
    (hbelow : inputs.fractionExponent < -exponentLimit) :
    inputs.Sound y ↔ inputs.exactSecret y = 0 := by
  obtain ⟨value, hvalue, hratio, hvalueExponent⟩ :=
    secretFraction_of_safe heval hbound.decimals hsum hexponent
  have hrange := abs_log_round_ratio_le heval hbound
  rw [← hratio] at hrange
  obtain ⟨x, hx, hfinite, hzero⟩ :=
    Fraction.toDecimal_of_below hvalueExponent hexponent hbelow hrange
  have hsecret : inputs.secret = .ok x := by rw [secret, hvalue, Outcome.ok_bind, hx]
  rw [sound_iff_sign heval hsecret, hzero, sign_zero, and_iff_right hfinite,
    eq_comm (a := (0 : SignType)), sign_eq_zero_iff]

theorem sound_iff_of_within (hsum : |inputs.exponentSum| ≤ Double.maxSafe)
    (hexponent : |inputs.fractionExponent| ≤ exponentLimit) :
    inputs.Sound y ↔ (inputs.exactSecret y ≠ 0 →
      |Int.log 10 (|roundSignificant Decimal.precision (inputs.exactSecret y)|)|
        ≤ exponentLimit) := by
  obtain ⟨x, hx, hrepresents⟩ := secret_represents heval hbound hsum hexponent
  rw [sound_iff_sign heval hx]
  by_cases hzero : inputs.exactSecret y = 0
  · rw [hrepresents.zero (by rw [hzero, roundSignificant_zero]), hzero]
    simp
  have hround := sign_roundSignificant (by decide : Decimal.precision ≠ 0) (inputs.exactSecret y)
  refine ⟨fun ⟨hfinite, hsign⟩ _ => ?_, fun hrange => ?_⟩
  · rw [abs_le]
    refine ⟨not_lt.mp fun hbelow => ?_, not_lt.mp fun habove => ?_⟩
    · rw [hrepresents.below hbelow, Decimal.toRat_signedZero, sign_zero, eq_comm,
        sign_eq_zero_iff] at hsign
      exact hzero hsign
    · rw [hrepresents.above habove] at hfinite
      cases hfinite
  · obtain ⟨hfinite, hvalue⟩ := hrepresents.within (hrange hzero)
    rw [hvalue, hround]
    exact ⟨hfinite, rfl⟩

/-- Soundness for evaluable inputs, case by case of the last exponent. -/
theorem sound_iff_withinLimits : inputs.Sound y ↔ inputs.WithinLimits y := by
  by_cases hsafe : |inputs.exponentSum| ≤ Double.maxSafe
      ∧ |inputs.fractionExponent| ≤ Double.maxSafe
  · obtain ⟨hsum, hexponent⟩ := hsafe
    -- Above, within and below the range of decimals; only within does the product matter.
    rcases lt_or_ge exponentLimit inputs.fractionExponent with habove | hle
    · refine iff_of_false (not_sound_of_above heval hbound hsum hexponent habove) ?_
      intro hlimits
      have hne : inputs.exactSecret y ≠ 0 := fun hzero => (hlimits.zero hzero).not_gt habove
      exact (abs_le.mp (hlimits.range hne).1).2.not_gt habove
    rcases lt_or_ge inputs.fractionExponent (-exponentLimit) with hbelow | hge
    · rw [sound_iff_of_below heval hbound hsum hexponent hbelow]
      refine ⟨fun hzero => ⟨hsum, hexponent, fun _ => hle, fun hne => absurd hzero hne⟩, ?_⟩
      intro hlimits
      by_contra hne
      exact (abs_le.mp (hlimits.range hne).1).1.not_gt hbelow
    · have hwithin : |inputs.fractionExponent| ≤ exponentLimit := abs_le.mpr ⟨hge, hle⟩
      rw [sound_iff_of_within heval hbound hsum hwithin]
      exact ⟨fun hrange => ⟨hsum, hexponent, fun _ => hle, fun hne => ⟨hwithin, hrange hne⟩⟩,
        fun hlimits hne => (hlimits.range hne).2⟩
  · -- The fraction itself is refused, so there is no value at all.
    refine iff_of_false ?_ fun hlimits => hsafe ⟨hlimits.sum, hlimits.exponent⟩
    rintro ⟨x, hx, -⟩
    obtain ⟨text, htext⟩ := secretFraction_of_not_safe heval hbound.decimals hsafe
    rw [secret, htext] at hx
    cases hx

end Evaluable

/-- **Acceptance is not enough.** Accepted inputs have a sound secret value exactly if all exponents
are within their limits. -/
theorem accepted_sound_iff (haccepted : inputs.Accepted) (hy : inputs.y = .ok y)
    (hbound : inputs.Bounded y) : inputs.Sound y ↔ inputs.WithinLimits y := by
  obtain ⟨y', heval⟩ := haccepted.evaluable
  have heq : y' = y := by
    have hhash := heval.hash
    rw [hy] at hhash
    cases hhash
    rfl
  subst heq
  exact sound_iff_withinLimits heval hbound

/-- A zero product beside a power of ten that is no decimal. -/
def overflowing : Inputs where
  pi := .ofScaled false 1 exponentLimit
  lambda := .ofInt 1
  mu := .ofScaled false 1 (-10)
  x := 0
  hashHex := "1"
  blockSize := 1
  crcValue := 0

/-- A configuration with two decimals whose exponents have no safe sum. -/
def unsummable : Value :=
  .object .plain [("inputs", .object .plain [
    ("pi", .string "1e9000000000000000"),
    ("lambda", .string "1e9000000000000000"),
    ("mu", .string "1"),
    ("x", .string "1"),
    ("hashHex", .string "1"),
    ("blockSize", .string "1"),
    ("crcValue", .string "0")])]

@[inherit_doc overflowing]
def overflowingDraft : Draft where
  pi := .string "1e9000000000000000"
  lambda := .string "1"
  mu := .string "1e-10"
  x := .string "0"
  hashHex := .string "1"
  blockSize := .string "1"
  crcValue := .string "0"

theorem overflowing_accepted : overflowing.Accepted := by
  have hcreate : create overflowingDraft = .ok overflowing := by decide +kernel
  exact .created hcreate

theorem overflowing_bounded : overflowing.Bounded 1 := by
  decide +kernel

theorem overflowing_sound_iff : overflowing.Accepted ∧ overflowing.y = .ok 1
    ∧ overflowing.Bounded 1 ∧ (overflowing.Sound 1 ↔ overflowing.WithinLimits 1)
    ∧ ¬ overflowing.WithinLimits 1 := by
  have hy : overflowing.y = .ok 1 := by decide +kernel
  refine ⟨overflowing_accepted, hy, overflowing_bounded,
    accepted_sound_iff overflowing_accepted hy overflowing_bounded, fun hlimits => ?_⟩
  have hzero : overflowing.exactSecret 1 = 0 := by
    have hx : overflowing.x = 0 := rfl
    rw [exactSecret, hx, Int.cast_zero, mul_zero, mul_zero, zero_div]
  have hexponent : overflowing.fractionExponent = exponentLimit + 10 := by decide +kernel
  have hle := hlimits.zero hzero
  omega

/-- Neither door keeps out what the transform cannot evaluate: zero comes out as no number, and two
exponents cannot even be added. -/
theorem not_accepted_sound :
    overflowing.Accepted ∧ overflowing.x = 0 ∧ overflowing.secret = .ok .nan
      ∧ (∃ reading, Config.validate unsummable = .ok reading
        ∧ reading.value.inputs.secret = .error (.range (.unsafeExponent "18000000000000000")))
      ∧ ¬ ∀ (inputs : Inputs) (y : ℕ), inputs.Accepted → inputs.y = .ok y → inputs.Sound y := by
  have hsecret : overflowing.secret = .ok .nan := by decide +kernel
  have hunsummable : (Config.validate unsummable).toOption.any (fun reading =>
      reading.value.inputs.secret
        = .error (.range (.unsafeExponent "18000000000000000"))) = true := by decide +kernel
  obtain ⟨reading, hreading, hfault⟩ := Outcome.exists_of_any hunsummable
  refine ⟨overflowing_accepted, rfl, hsecret, ⟨reading, hreading, of_decide_eq_true hfault⟩, ?_⟩
  intro hall
  obtain ⟨x, hx, hfinite, -⟩ := hall overflowing 1 overflowing_accepted (by decide +kernel)
  rw [hsecret] at hx
  cases hx
  cases hfinite

end Inputs

end AngleSeries
