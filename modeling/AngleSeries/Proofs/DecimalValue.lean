import AngleSeries.Decimal.Arithmetic
import AngleSeries.Proofs.SignificantDigits

/-!
# Decimals as numbers

Three things can become of a rational number that is to be held by a decimal. Within the range of
exponents the decimal has exactly that value; above it stands an infinity and below it a zero, both
with the sign of the number. `Represents` says all three at once, so one statement per operation
describes it on the whole number line, and a number determines its decimal.
-/

namespace AngleSeries

open Numeral

theorem leadOf_eq_log {coefficient : ℕ} (hne : coefficient ≠ 0) (exponent : ℤ) :
    leadOf coefficient exponent = Int.log 10 ((coefficient : ℚ) * 10 ^ exponent) := by
  rw [leadOf, log_natCast_mul_zpow hne]

namespace Decimal

/-- A magnitude with its sign. -/
def signed (negative : Bool) (q : ℚ) : ℚ :=
  if negative then -q else q

@[simp]
theorem signed_false (q : ℚ) : signed false q = q := rfl

@[simp]
theorem signed_true (q : ℚ) : signed true q = -q := rfl

@[simp]
theorem abs_signed (negative : Bool) (q : ℚ) : |signed negative q| = |q| := by
  cases negative <;> simp

theorem signed_neg_iff {q : ℚ} (hq : 0 < q) (negative : Bool) :
    signed negative q < 0 ↔ negative = true := by
  cases negative <;> simp [hq, hq.le]

theorem signed_mul (a b : Bool) (p q : ℚ) : signed a p * signed b q = signed (a ^^ b) (p * q) := by
  cases a <;> cases b <;> simp

theorem signed_of_abs (q : ℚ) : signed (decide (q < 0)) |q| = q := by
  by_cases hq : q < 0
  · simp [hq, abs_of_neg hq]
  · simp [hq, abs_of_nonneg (not_lt.mp hq)]

theorem roundSignificant_signed (count : ℕ) (negative : Bool) (q : ℚ) :
    roundSignificant count (signed negative q) = signed negative (roundSignificant count q) := by
  cases negative <;> simp

theorem toRat_finite (negative : Bool) (coefficient : ℕ) (exponent : ℤ)
    (normal : Normal coefficient exponent) :
    (finite negative coefficient exponent normal).toRat
      = signed negative ((coefficient : ℚ) * 10 ^ exponent) := by
  cases negative <;> simp [toRat]

@[simp]
theorem toRat_signedZero (negative : Bool) : (signedZero negative).toRat = 0 := by
  cases negative <;> simp [signedZero, toRat]

@[simp]
theorem isFinite_signedZero (negative : Bool) : (signedZero negative).isFinite = true := rfl

/-- A finite decimal by its parts. -/
theorem exists_of_isFinite {x : Decimal} (hx : x.isFinite = true) :
    ∃ negative coefficient exponent normal, x = finite negative coefficient exponent normal := by
  cases x with
  | nan => cases hx
  | infinite _ => cases hx
  | finite negative coefficient exponent normal => exact ⟨_, _, _, _, rfl⟩

/-- What a decimal holds of a rational number. -/
structure Represents (x : Decimal) (q : ℚ) : Prop where
  zero : q = 0 → x = signedZero false
  within : |Int.log 10 (|q|)| ≤ exponentLimit → x.isFinite = true ∧ x.toRat = q
  above : exponentLimit < Int.log 10 |q| → x = infinite (decide (q < 0))
  below : Int.log 10 |q| < -exponentLimit → x = signedZero (decide (q < 0))

/-- What a decimal is that represents a number: an infinity, the number, or the zero below it. -/
theorem Represents.cases {x : Decimal} {p : ℚ} (hx : x.Represents p) :
    exponentLimit < Int.log 10 |p| ∧ x = infinite (decide (p < 0))
      ∨ -exponentLimit ≤ Int.log 10 |p| ∧ x.isFinite = true ∧ x.toRat = p
      ∨ Int.log 10 |p| < -exponentLimit ∧ x.isFinite = true ∧ x.toRat = 0 := by
  rcases lt_or_ge exponentLimit (Int.log 10 |p|) with habove | hle
  · exact .inl ⟨habove, hx.above habove⟩
  rcases lt_or_ge (Int.log 10 |p|) (-exponentLimit) with hbelow | hge
  · refine .inr (.inr ⟨hbelow, ?_⟩)
    rw [hx.below hbelow]
    exact ⟨isFinite_signedZero _, toRat_signedZero _⟩
  · exact .inr (.inl ⟨hge, hx.within (abs_le.mpr ⟨hge, hle⟩)⟩)

/-! ### One decimal for one number -/

theorem toRat_eq_zero_iff (negative : Bool) (coefficient : ℕ) (exponent : ℤ)
    (normal : Normal coefficient exponent) :
    (finite negative coefficient exponent normal).toRat = 0 ↔ coefficient = 0 := by
  have hpow : (10 : ℚ) ^ exponent ≠ 0 := by positivity
  rw [toRat_finite]
  cases negative <;> simp [hpow]

theorem last_digit_ne_zero {coefficient : ℕ} {exponent : ℤ} (normal : Normal coefficient exponent)
    (hne : coefficient ≠ 0) : coefficient % 10 ≠ 0 := by
  rcases normal with ⟨hzero, _⟩ | ⟨hlast, _⟩
  · exact absurd hzero hne
  · exact hlast

private theorem parts_eq_of_le {m n : ℕ} {p q : ℤ} (hm : m % 10 ≠ 0) (hle : p ≤ q)
    (heq : (m : ℚ) * 10 ^ p = n * 10 ^ q) : m = n ∧ p = q := by
  obtain ⟨k, rfl⟩ : ∃ k : ℕ, q = p + k := ⟨(q - p).toNat, by omega⟩
  have hpow : (10 : ℚ) ^ p ≠ 0 := by positivity
  have hnat : m = n * 10 ^ k := by
    rw [zpow_add₀ (by norm_num), zpow_natCast, mul_left_comm, mul_comm] at heq
    exact_mod_cast mul_left_cancel₀ hpow heq
  have hk := coefficient_unique hm hnat
  subst hk
  simpa using hnat

/-- Without trailing zeros the digits of a number and their place are determined. -/
theorem parts_unique {m n : ℕ} {p q : ℤ} (hm : m % 10 ≠ 0) (hn : n % 10 ≠ 0)
    (heq : (m : ℚ) * 10 ^ p = n * 10 ^ q) : m = n ∧ p = q := by
  rcases le_total p q with hle | hle
  · exact parts_eq_of_le hm hle heq
  · obtain ⟨hmn, hpq⟩ := parts_eq_of_le hn hle heq.symm
    exact ⟨hmn.symm, hpq.symm⟩

/-- Finite decimals of one value other than zero are the same decimal. -/
theorem eq_of_toRat_eq {x y : Decimal} (hx : x.isFinite = true) (hy : y.isFinite = true)
    (hne : x.toRat ≠ 0) (heq : x.toRat = y.toRat) : x = y := by
  obtain ⟨a, m, p, hmp, rfl⟩ := exists_of_isFinite hx
  obtain ⟨b, n, q, hnq, rfl⟩ := exists_of_isFinite hy
  have hm : m ≠ 0 := mt (toRat_eq_zero_iff a m p hmp).mpr hne
  have hn : n ≠ 0 := mt (toRat_eq_zero_iff b n q hnq).mpr (heq ▸ hne)
  have hmpos : (0 : ℚ) < (m : ℚ) * 10 ^ p := by
    have : (0 : ℚ) < m := by exact_mod_cast Nat.pos_of_ne_zero hm
    positivity
  have hnpos : (0 : ℚ) < (n : ℚ) * 10 ^ q := by
    have : (0 : ℚ) < n := by exact_mod_cast Nat.pos_of_ne_zero hn
    positivity
  rw [toRat_finite, toRat_finite] at heq
  have hsign : a = b := by
    have ha := signed_neg_iff hmpos a
    rw [heq, signed_neg_iff hnpos b] at ha
    exact Bool.eq_iff_iff.mpr ha.symm
  have hmag := congrArg abs heq
  rw [abs_signed, abs_signed, abs_of_pos hmpos, abs_of_pos hnpos] at hmag
  obtain ⟨rfl, rfl⟩ := parts_unique (last_digit_ne_zero hmp hm) (last_digit_ne_zero hnq hn) hmag
  subst hsign
  rfl

/-- **A number determines its decimal**, beyond the range as well as within. -/
theorem Represents.unique {x y : Decimal} {q : ℚ} (hx : x.Represents q) (hy : y.Represents q) :
    x = y := by
  by_cases hzero : q = 0
  · rw [hx.zero hzero, hy.zero hzero]
  by_cases hwithin : |Int.log 10 (|q|)| ≤ exponentLimit
  · obtain ⟨hxf, hxq⟩ := hx.within hwithin
    obtain ⟨hyf, hyq⟩ := hy.within hwithin
    exact eq_of_toRat_eq hxf hyf (hxq ▸ hzero) (hxq.trans hyq.symm)
  rw [abs_le, not_and_or, not_le, not_le] at hwithin
  rcases hwithin with hbelow | habove
  · rw [hx.below hbelow, hy.below hbelow]
  · rw [hx.above habove, hy.above habove]

/-! ### What the operations represent -/

/-- Bringing a scaled coefficient into normal form keeps the number. -/
theorem represents_ofScaled (negative : Bool) {coefficient : ℕ} (hne : coefficient ≠ 0)
    (exponent : ℤ) :
    (ofScaled negative coefficient exponent).Represents
      (signed negative ((coefficient : ℚ) * 10 ^ exponent)) := by
  obtain ⟨k, hvalue, hexponent, hlast⟩ := stripZeros_spec hne exponent
  set stripped := stripZeros coefficient exponent with hstripped
  have hstrippedNe : stripped.1 ≠ 0 := by
    intro hzero
    rw [hzero] at hlast
    exact hlast rfl
  have hsame : (stripped.1 : ℚ) * 10 ^ stripped.2 = (coefficient : ℚ) * 10 ^ exponent := by
    have hcast : (coefficient : ℚ) = stripped.1 * 10 ^ k := by exact_mod_cast hvalue
    rw [hexponent, zpow_add₀ (by norm_num), zpow_natCast, hcast]
    ring
  have hpos : (0 : ℚ) < (coefficient : ℚ) * 10 ^ exponent := by
    have : (0 : ℚ) < coefficient := by exact_mod_cast Nat.pos_of_ne_zero hne
    positivity
  have hlead : leadOf stripped.1 stripped.2 = Int.log 10 ((coefficient : ℚ) * 10 ^ exponent) := by
    rw [leadOf_eq_log hstrippedNe, hsame]
  have hnormal : Normal stripped.1 stripped.2
      ↔ |Int.log 10 ((coefficient : ℚ) * 10 ^ exponent)| ≤ exponentLimit := by
    rw [Normal, hlead, abs_le]
    exact ⟨fun h => h.elim (fun h => absurd h.1 hstrippedNe) And.right, fun h => .inr ⟨hlast, h⟩⟩
  have hsign : decide (signed negative ((coefficient : ℚ) * 10 ^ exponent) < 0) = negative := by
    rw [Bool.decide_congr (signed_neg_iff hpos negative), Bool.decide_eq_true]
  have hlimit : 0 ≤ exponentLimit := by decide
  unfold ofScaled
  simp only [← hstripped]
  constructor
  · intro hzero
    have habs := congrArg abs hzero
    rw [abs_signed, abs_of_pos hpos, abs_zero] at habs
    exact absurd habs hpos.ne'
  · intro hwithin
    rw [abs_signed, abs_of_pos hpos, ← hnormal] at hwithin
    rw [dif_pos hwithin]
    exact ⟨rfl, by rw [toRat_finite, hsame]⟩
  · intro habove
    rw [abs_signed, abs_of_pos hpos] at habove
    have hnot : ¬ Normal stripped.1 stripped.2 := by
      rw [hnormal, abs_le]
      omega
    rw [dif_neg hnot, if_pos (hlead ▸ habove), hsign]
  · intro hbelow
    rw [abs_signed, abs_of_pos hpos] at hbelow
    have hnot : ¬ Normal stripped.1 stripped.2 := by
      rw [hnormal, abs_le]
      omega
    rw [dif_neg hnot, if_neg (by rw [hlead]; omega), hsign]

theorem represents_signedZero : (signedZero false).Represents 0 :=
  ⟨fun _ => rfl, fun _ => ⟨rfl, toRat_signedZero false⟩,
    fun h => absurd h (by simp [exponentLimit]), fun h => absurd h (by simp [exponentLimit])⟩

/-- A rounded quotient with its power of ten. -/
theorem represents_rounded {count : ℕ} (hcount : count ≠ 0) (negative : Bool) {n d : ℕ}
    (hn : n ≠ 0) (hd : d ≠ 0) (exponent : ℤ) :
    (rounded roundHalfEven count negative n d exponent).Represents
      (roundSignificant count (signed negative ((n : ℚ) / d * 10 ^ exponent))) := by
  have hvalue : ((roundToDigits roundHalfEven count n d).1 : ℚ)
      * 10 ^ ((roundToDigits roundHalfEven count n d).2 + exponent)
      = roundSignificant count ((n : ℚ) / d * 10 ^ exponent) := by
    rw [zpow_add₀ (by norm_num), ← mul_assoc, roundToDigits_value hn hd,
      roundSignificant_mul_zpow]
  rw [roundSignificant_signed, ← hvalue, rounded, if_neg hn]
  exact represents_ofScaled negative (roundToDigits_ne_zero hn hd hcount) _

theorem represents_quotient (n : ℤ) {d : ℕ} (hd : d ≠ 0) :
    (quotient n d).Represents (roundSignificant precision ((n : ℚ) / d)) := by
  by_cases hn : n = 0
  · subst hn
    rw [Int.cast_zero, zero_div, roundSignificant_zero]
    exact represents_signedZero
  · have hmag : signed (decide (n < 0)) (((n.natAbs : ℕ) : ℚ) / d * 10 ^ (0 : ℤ)) = (n : ℚ) / d := by
      have hsigned := signed_of_abs (n : ℚ)
      rw [Nat.cast_natAbs, Int.cast_abs, zpow_zero, mul_one]
      have hneg : decide ((n : ℚ) < 0) = decide (n < 0) := by simp
      rw [hneg] at hsigned
      nth_rewrite 2 [← hsigned]
      cases decide (n < 0) <;> simp [neg_div]
    rw [← hmag]
    exact represents_rounded (by decide) _ (Int.natAbs_ne_zero.mpr hn) hd 0

/-- A product of finite decimals is the product of their values, rounded once. -/
theorem represents_mul {x y : Decimal} (hx : x.isFinite = true) (hy : y.isFinite = true)
    (hne : x.toRat * y.toRat ≠ 0) :
    (x * y).Represents (roundSignificant precision (x.toRat * y.toRat)) := by
  obtain ⟨a, m, p, hmp, rfl⟩ := exists_of_isFinite hx
  obtain ⟨b, n, q, hnq, rfl⟩ := exists_of_isFinite hy
  obtain ⟨hxne, hyne⟩ := mul_ne_zero_iff.mp hne
  have hm : m ≠ 0 := mt (toRat_eq_zero_iff a m p hmp).mpr hxne
  have hn : n ≠ 0 := mt (toRat_eq_zero_iff b n q hnq).mpr hyne
  have hprod : signed a ((m : ℚ) * 10 ^ p) * signed b ((n : ℚ) * 10 ^ q)
      = signed (a ^^ b) (((m * n : ℕ) : ℚ) / (1 : ℕ) * 10 ^ (p + q)) := by
    rw [signed_mul, zpow_add₀ (by norm_num)]
    congr 1
    push_cast
    ring
  rw [toRat_finite, toRat_finite, hprod]
  exact represents_rounded (by decide) _ (mul_ne_zero hm hn) one_ne_zero _

/-- A zero stays a zero, with the signs multiplied. -/
theorem mul_signedZero {x : Decimal} (hx : x.isFinite = true) (negative : Bool) :
    ∃ sign, x * signedZero negative = signedZero sign := by
  obtain ⟨a, m, p, hmp, rfl⟩ := exists_of_isFinite hx
  refine ⟨a ^^ negative, ?_⟩
  change rounded roundHalfEven precision (a ^^ negative) (m * 0) 1 (p + 0) = _
  rw [mul_zero, rounded, if_pos rfl]

theorem signedZero_mul_of_pos {x : Decimal} (hx : x.isFinite = true) (hpos : 0 < x.toRat) :
    signedZero false * x = signedZero false := by
  obtain ⟨a, m, p, hmp, rfl⟩ := exists_of_isFinite hx
  have hsign : a = false := by
    cases a with
    | false => rfl
    | true =>
        rw [toRat_finite, signed_true, neg_pos] at hpos
        exact absurd hpos (not_lt.mpr (by positivity))
  subst hsign
  change rounded roundHalfEven precision false (0 * m) 1 (0 + p) = _
  rw [zero_mul, rounded, if_pos rfl]

theorem isFinite_mul_infinite (x : Decimal) (negative : Bool) :
    (x * infinite negative).isFinite = false := by
  cases x with
  | nan => rfl
  | infinite a => rfl
  | finite a m p hmp =>
      change (if m = 0 then Decimal.nan else infinite (a ^^ negative)).isFinite = false
      split_ifs <;> rfl

end Decimal

end AngleSeries
