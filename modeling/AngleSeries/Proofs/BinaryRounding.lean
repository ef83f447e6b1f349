import AngleSeries.Proofs.ExactValues
import AngleSeries.Proofs.SignificantDigits

/-!
# Rounding to binary64 numbers

What rounding to binary64 means is said on rational numbers: a number is rounded in units of the
last of fifty-three significant bits, and never in finer units than the least positive number. A
result that leaves the range is infinite, and a result within it is exactly the rounded number. Up
to `2 ^ 53` integers are not rounded, and nothing beyond is rounded to an integer below.
-/

namespace AngleSeries

/-- The exponent of the last of fifty-three significant bits, or of the least positive number. -/
def lastBit (q : ℚ) : ℤ :=
  max (Int.log 2 |q| - 52) (-1074)

/-- The rational number nearest to `q` that has fifty-three significant bits and no bit below the
least positive number; of two nearest ones the even one. -/
def roundBinary (q : ℚ) : ℚ :=
  nearestEven (q / 2 ^ lastBit q) * 2 ^ lastBit q

theorem log_two_eq_iff {q : ℚ} (hq : 0 < q) {k : ℤ} :
    Int.log 2 q = k ↔ 2 ^ k ≤ q ∧ q < 2 ^ (k + 1) := by
  exact_mod_cast log_base_eq_iff (b := 2) (by decide) hq

/-! ### Rounding rational numbers -/

@[simp]
theorem roundBinary_zero : roundBinary 0 = 0 := by
  simp [roundBinary, nearestEven]

@[simp]
theorem roundBinary_neg (q : ℚ) : roundBinary (-q) = -roundBinary q := by
  simp [roundBinary, lastBit, neg_div, nearestEven_neg]

theorem roundBinary_of_mul {q : ℚ} (count : ℤ) (hq : q = count * 2 ^ lastBit q) :
    roundBinary q = q := by
  have hpow : (2 : ℚ) ^ lastBit q ≠ 0 := by positivity
  have hcount : q / 2 ^ lastBit q = count := by rw [div_eq_iff hpow, ← hq]
  rw [roundBinary, hcount, nearestEven_intCast, ← hq]

theorem roundBinary_natCast {n : ℕ} (hn : n ≤ 2 ^ 53) : roundBinary n = n := by
  by_cases hzero : n = 0
  · rw [hzero, Nat.cast_zero, roundBinary_zero]
  have habs : |(n : ℚ)| = n := abs_of_nonneg (Nat.cast_nonneg n)
  have hlog : Int.log 2 |(n : ℚ)| = Nat.log 2 n := by rw [habs, Int.log_natCast]
  rcases hn.lt_or_eq with hlt | rfl
  · have hsmall : Nat.log 2 n < 53 := Nat.log_lt_of_lt_pow hzero hlt
    have hlast : lastBit n ≤ 0 := by
      rw [lastBit, hlog]
      omega
    obtain ⟨k, hk⟩ : ∃ k : ℕ, lastBit n = -k := ⟨(-lastBit n).toNat, by omega⟩
    refine roundBinary_of_mul (n * 2 ^ k) ?_
    rw [hk, zpow_neg, zpow_natCast]
    push_cast
    field_simp
  · have hone : lastBit ((2 ^ 53 : ℕ) : ℚ) = 1 := by
      rw [lastBit, hlog, Nat.log_pow (by decide)]
      rfl
    refine roundBinary_of_mul (2 ^ 52) ?_
    rw [hone]
    norm_num

theorem roundBinary_intCast {n : ℤ} (hn : n.natAbs ≤ 2 ^ 53) : roundBinary n = n := by
  rcases Int.natAbs_eq n with heq | heq
  · rw [heq, Int.cast_natCast]
    exact roundBinary_natCast hn
  · rw [heq, Int.cast_neg, roundBinary_neg, Int.cast_natCast, roundBinary_natCast hn]

/-- Rounding does not go below a power of two. -/
theorem zpow_le_roundBinary {q : ℚ} {k : ℤ} (hk : -1074 ≤ k) (hle : 2 ^ k ≤ q) :
    2 ^ k ≤ roundBinary q := by
  have htwo : (1 : ℚ) < 2 := by norm_num
  have hq : 0 < q := (by positivity : (0 : ℚ) < 2 ^ k).trans_le hle
  have hlog := (log_two_eq_iff hq).mp rfl
  have hklog : k ≤ Int.log 2 q := by
    have hlt := hle.trans_lt hlog.2
    rw [zpow_lt_zpow_iff_right₀ htwo] at hlt
    omega
  have hlast : lastBit q ≤ Int.log 2 q := by
    rw [lastBit, abs_of_pos hq]
    omega
  obtain ⟨j, hj⟩ : ∃ j : ℕ, Int.log 2 q = j + lastBit q :=
    ⟨(Int.log 2 q - lastBit q).toNat, by omega⟩
  have hunit : (0 : ℚ) < 2 ^ lastBit q := by positivity
  have hsplit : (2 : ℚ) ^ Int.log 2 q = ((2 ^ j : ℤ) : ℚ) * 2 ^ lastBit q := by
    rw [hj, zpow_add₀ (by norm_num), zpow_natCast]
    push_cast
    rfl
  have hcount : 2 ^ j ≤ nearestEven (q / 2 ^ lastBit q) := by
    refine le_nearestEven ?_
    rw [le_div_iff₀ hunit, ← hsplit]
    exact hlog.1
  calc (2 : ℚ) ^ k ≤ 2 ^ Int.log 2 q := zpow_le_zpow_right₀ htwo.le hklog
    _ = ((2 ^ j : ℤ) : ℚ) * 2 ^ lastBit q := hsplit
    _ ≤ roundBinary q := mul_le_mul_of_nonneg_right (Int.cast_le.mpr hcount) hunit.le

theorem nearestEven_of_abs_lt {q : ℚ} (hq : |q| < 1 / 2) : nearestEven q = 0 := by
  have hnear := (nearestEven_spec q).1
  have hlt : |(nearestEven q : ℚ)| < 1 := by
    rw [abs_sub_comm] at hnear
    have htriangle := abs_sub_abs_le_abs_sub (nearestEven q : ℚ) q
    linarith
  rw [← Int.cast_abs] at hlt
  exact Int.abs_lt_one_iff.mp (by exact_mod_cast hlt)

/-- Less than half of the least positive number is nothing. -/
theorem roundBinary_of_lt {q : ℚ} (hq : |q| < 2 ^ (-1075 : ℤ)) : roundBinary q = 0 := by
  by_cases hzero : q = 0
  · rw [hzero, roundBinary_zero]
  have hlog : Int.log 2 |q| < -1075 := by
    have hlow := ((log_two_eq_iff (abs_pos.mpr hzero)).mp rfl).1.trans_lt hq
    rwa [zpow_lt_zpow_iff_right₀ (by norm_num)] at hlow
  have hlast : lastBit q = -1074 := by
    rw [lastBit]
    omega
  have hsmall : |q / 2 ^ (-1074 : ℤ)| < 1 / 2 := by
    rw [abs_div, abs_of_pos (by positivity : (0 : ℚ) < 2 ^ (-1074 : ℤ)),
      div_lt_iff₀ (by positivity)]
    refine hq.trans_eq ?_
    rw [show (-1075 : ℤ) = -1 + -1074 by rfl, zpow_add₀ (by norm_num)]
    norm_num
  rw [roundBinary, hlast, nearestEven_of_abs_lt hsmall, Int.cast_zero, zero_mul]

/-! ### Rounding units -/

namespace Double

section Units

variable (n : ℕ) {d : ℕ} (hd : 0 < d)

theorem unitsPerOne_eq_zpow : (unitsPerOne : ℚ) = 2 ^ (1074 : ℤ) := by
  rw [unitsPerOne, Nat.cast_pow, ← zpow_natCast]
  exact congrArg (fun e : ℤ => (2 : ℚ) ^ e) (show (oneBits : ℤ) = 1074 from rfl)

theorem unitsLimit_eq : (unitsLimit : ℚ) = 2 ^ (1024 : ℤ) * unitsPerOne := by
  have hsplit : (limitBits : ℤ) = 1024 + 1074 := rfl
  rw [unitsPerOne_eq_zpow, ← zpow_add₀ two_ne_zero, ← hsplit, unitsLimit, Nat.cast_pow,
    zpow_natCast, Nat.cast_ofNat]

include hd

/-- The step of rounding in units is the last bit of the number. -/
theorem lastBit_units (hn : n ≠ 0) :
    lastBit ((n : ℚ) / d / unitsPerOne) = ((n / d).log2 - 52 : ℕ) - 1074 := by
  have hdq : (0 : ℚ) < d := by exact_mod_cast hd
  have hnq : (0 : ℚ) < n := by exact_mod_cast Nat.pos_of_ne_zero hn
  have hpos : 0 < (n : ℚ) / d / unitsPerOne :=
    div_pos (div_pos hnq hdq) unitsPerOne_pos_rat
  rw [lastBit, abs_of_pos hpos]
  by_cases hquotient : n / d = 0
  -- Below one unit the last bit is that of the least positive number.
  · have hsmall : (n : ℚ) / d < 1 := by
      rw [div_lt_one hdq, Nat.cast_lt]
      exact (Nat.div_eq_zero_iff_lt hd).mp hquotient
    have hlog : Int.log 2 ((n : ℚ) / d / unitsPerOne) < -1074 := by
      have hone : 1 / (unitsPerOne : ℚ) = 2 ^ (-1074 : ℤ) := by
        rw [unitsPerOne_eq_zpow, one_div, ← zpow_neg]
      have hlow := ((log_two_eq_iff hpos).mp rfl).1.trans_lt
        (div_lt_div_of_pos_right hsmall unitsPerOne_pos_rat)
      rwa [hone, zpow_lt_zpow_iff_right₀ (by norm_num)] at hlow
    rw [hquotient, Nat.log2_zero]
    omega
  · have hlow : (2 : ℚ) ^ (n / d).log2 ≤ (n : ℚ) / d := by
      rw [le_div_iff₀ hdq]
      have := (Nat.le_div_iff_mul_le hd).mp (Nat.log2_self_le hquotient)
      exact_mod_cast this
    have hhigh : (n : ℚ) / d < 2 ^ ((n / d).log2 + 1) := by
      rw [div_lt_iff₀ hdq]
      have := (Nat.div_lt_iff_lt_mul hd).mp (Nat.lt_log2_self (n := n / d))
      exact_mod_cast this
    have hlog : Int.log 2 ((n : ℚ) / d / unitsPerOne) = (n / d).log2 - 1074 := by
      rw [log_two_eq_iff hpos, unitsPerOne_eq_zpow, le_div_iff₀ (by positivity),
        div_lt_iff₀ (by positivity), ← zpow_add₀ (by norm_num), ← zpow_add₀ (by norm_num),
        sub_add_cancel, add_right_comm, sub_add_cancel]
      exact_mod_cast And.intro hlow hhigh
    rw [hlog]
    omega

/-- **Rounding in units is rounding the number.** -/
theorem roundUnits_div_unitsPerOne :
    (roundUnits n d : ℚ) / unitsPerOne = roundBinary (n / d / unitsPerOne) := by
  by_cases hn : n = 0
  · subst hn
    have hzero : roundUnits 0 d = 0 := by simp [roundUnits, roundHalfEven, hd]
    rw [hzero, Nat.cast_zero, zero_div, zero_div, zero_div, roundBinary_zero]
  set step : ℕ := (n / d).log2 - 52 with hstep
  have hunit : (2 : ℚ) ^ lastBit ((n : ℚ) / d / unitsPerOne) = 2 ^ step / unitsPerOne := by
    rw [lastBit_units n hd hn, ← hstep, zpow_sub₀ (by norm_num), zpow_natCast, unitsPerOne_eq_zpow]
  have hcount : (n : ℚ) / d / unitsPerOne / (2 ^ step / unitsPerOne)
      = n / ((d * 2 ^ step : ℕ) : ℚ) := by
    have hone := unitsPerOne_pos_rat.ne'
    push_cast
    field_simp
  rw [roundBinary, hunit, hcount, nearestEven_natCast_div n (Nat.mul_pos hd (Nat.two_pow_pos step)),
    roundUnits, ← hstep]
  push_cast
  ring

end Units

/-! ### Numbers and their values -/

section Values

variable {x : Double} {i : ℤ} {q : ℚ}

theorem toInt?_eq_some_iff : x.toInt? = some i ↔ x.isFinite = true ∧ x.toRat = i := by
  constructor
  · intro hx
    exact ⟨isFinite_of_toInt? hx, toRat_of_toInt? hx⟩
  · rintro ⟨hfinite, hvalue⟩
    cases x with
    | nan => cases hfinite
    | infinite negative => cases hfinite
    | finite negative units h =>
        rw [toRat_finite, div_eq_iff unitsPerOne_pos_rat.ne'] at hvalue
        have hsigned : (if negative then -(units : ℤ) else units) = i * unitsPerOne := by
          exact_mod_cast hvalue
        have hunits : units = i.natAbs * unitsPerOne := by
          have habs := congrArg Int.natAbs hsigned
          rw [Int.natAbs_mul, Int.natAbs_natCast] at habs
          rw [← habs]
          cases negative <;> simp
        have hsign : (if negative then -(i.natAbs : ℤ) else i.natAbs) = i := by
          have hone : (unitsPerOne : ℤ) ≠ 0 := by exact_mod_cast unitsPerOne_pos.ne'
          refine mul_right_cancel₀ hone ?_
          rw [← hsigned, hunits, Nat.cast_mul]
          cases negative <;> simp only [Bool.false_eq_true, if_false, if_true, neg_mul]
        rw [toInt?]
        simp only [hunits, Nat.mul_mod_left, if_true, Nat.mul_div_cancel _ unitsPerOne_pos, hsign]

theorem toSafeInt?_eq_some_iff : x.toSafeInt? = some i ↔ x.toInt? = some i ∧ |i| ≤ maxSafe := by
  rw [toSafeInt?, Option.filter_eq_some_iff, decide_eq_true_eq, abs_le]

/-- A number is nearest to a rational if it is the rounded rational, or if the rounded rational is
out of the range and the number is not finite. -/
def IsNearest (x : Double) (q : ℚ) : Prop :=
  if x.isFinite then x.toRat = roundBinary q else 2 ^ (1024 : ℤ) ≤ |roundBinary q|

theorem IsNearest.toSafeInt?_eq_some_iff (hx : x.IsNearest q) :
    x.toSafeInt? = some i ↔ roundBinary q = i ∧ |i| ≤ maxSafe := by
  rw [Double.toSafeInt?_eq_some_iff, toInt?_eq_some_iff]
  unfold IsNearest at hx
  split at hx
  case isTrue hfinite => simp only [hfinite, hx, true_and]
  case isFalse hinfinite =>
    refine iff_of_false (fun hsafe => hinfinite hsafe.1.1) ?_
    rintro ⟨hround, hsafe⟩
    have hbound : |roundBinary q| < 2 ^ (1024 : ℤ) := by
      rw [hround, ← Int.cast_abs]
      calc ((|i| : ℤ) : ℚ) ≤ (maxSafe : ℤ) := Int.cast_le.mpr hsafe
        _ < 2 ^ (53 : ℤ) := by norm_num [maxSafe]
        _ ≤ 2 ^ (1024 : ℤ) := zpow_le_zpow_right₀ (by norm_num) (by norm_num)
    exact absurd hx hbound.not_ge

end Values

section Nearest

variable {q : ℚ} (negative : Bool)

def signed (negative : Bool) (q : ℚ) : ℚ :=
  if negative then -q else q

theorem roundBinary_signed (q : ℚ) :
    roundBinary (signed negative q) = signed negative (roundBinary q) := by
  cases negative with
  | false => rfl
  | true => exact roundBinary_neg q

theorem abs_signed (q : ℚ) : |signed negative q| = |q| := by
  cases negative with
  | false => rfl
  | true => exact abs_neg q

theorem isNearest_signedZero (hround : roundBinary q = 0) : (signedZero negative).IsNearest q := by
  have hfinite : (signedZero negative).isFinite = true := rfl
  rw [IsNearest, if_pos hfinite, hround, toRat_of_toInt? (toInt?_signedZero negative),
    Int.cast_zero]

theorem isNearest_infinite (hround : 2 ^ (1024 : ℤ) ≤ |roundBinary q|) :
    (infinite negative).IsNearest q :=
  hround

theorem isNearest_ofQuotient (n : ℕ) {d : ℕ} (hd : 0 < d) :
    (ofQuotient negative n d).IsNearest (signed negative ((n : ℚ) / d / unitsPerOne)) := by
  have hround := roundUnits_div_unitsPerOne n hd
  rw [ofQuotient, ofUnits]
  split
  case isTrue hrep =>
    have hfinite : (finite negative (roundUnits n d) hrep).isFinite = true := rfl
    rw [IsNearest, if_pos hfinite, roundBinary_signed, ← hround, toRat_finite, signed]
    split
    · rw [Int.cast_neg, Int.cast_natCast, neg_div]
    · rw [Int.cast_natCast]
  case isFalse hrep =>
    have hlimit : unitsLimit ≤ roundUnits n d :=
      not_lt.mp fun hlt => hrep (representable_roundUnits hd hlt)
    refine isNearest_infinite negative ?_
    rw [roundBinary_signed, abs_signed, ← hround,
      abs_of_nonneg (div_nonneg (Nat.cast_nonneg _) unitsPerOne_pos_rat.le),
      le_div_iff₀ unitsPerOne_pos_rat, ← unitsLimit_eq]
    exact Nat.cast_le.mpr hlimit

theorem isNearest_ofNat (n : ℕ) : (ofNat n).IsNearest n := by
  have hnearest := isNearest_ofQuotient false (n * unitsPerOne) Nat.one_pos
  rw [Nat.cast_mul, Nat.cast_one, div_one, mul_div_cancel_right₀ _ unitsPerOne_pos_rat.ne']
    at hnearest
  have hsign : decide ((n : ℤ) < 0) = false := by simp
  rw [ofNat, ofInt, Int.natAbs_natCast, hsign]
  exact hnearest

theorem two_pow_le_ten_pow (k : ℕ) : (2 : ℚ) ^ (93 * k) ≤ 10 ^ (28 * k) := by
  rw [pow_mul, pow_mul]
  exact pow_le_pow_left₀ (by positivity) (by norm_num) k

theorem zpow_le_ten_zpow : (2 : ℚ) ^ (1024 : ℤ) ≤ 10 ^ (309 : ℤ) :=
  calc (2 : ℚ) ^ (1024 : ℤ) = 2 ^ (93 * 11) * 2 ^ 1 := by rw [← pow_add]; rfl
    _ ≤ 10 ^ (28 * 11) * 10 ^ 1 := mul_le_mul (two_pow_le_ten_pow 11) (by norm_num) (by positivity)
      (by positivity)
    _ = 10 ^ (309 : ℤ) := by rw [← pow_add]; rfl

theorem ten_zpow_le_zpow : (10 : ℚ) ^ (-325 : ℤ) ≤ 2 ^ (-1075 : ℤ) := by
  have hpow : (2 : ℚ) ^ (1075 : ℤ) ≤ 10 ^ (325 : ℤ) :=
    calc (2 : ℚ) ^ (1075 : ℤ) = 2 ^ (93 * 11) * 2 ^ 52 := by rw [← pow_add]; rfl
      _ ≤ 10 ^ (28 * 11) * 10 ^ 17 := mul_le_mul (two_pow_le_ten_pow 11) (by norm_num)
        (by positivity) (by positivity)
      _ = 10 ^ (325 : ℤ) := by rw [← pow_add]; rfl
  rw [zpow_neg, zpow_neg]
  exact inv_anti₀ (by positivity) hpow

/-- **A decimal is read as the nearest number**, also where its power of ten is never expanded. -/
theorem isNearest_ofDecimal (coefficient : ℕ) (exponent : ℤ) :
    (ofDecimal negative coefficient exponent).IsNearest
      (signed negative (coefficient * 10 ^ exponent)) := by
  by_cases hzero : coefficient = 0
  · rw [ofDecimal, if_pos hzero, hzero]
    refine isNearest_signedZero negative ?_
    rw [roundBinary_signed, Nat.cast_zero, zero_mul, roundBinary_zero]
    cases negative <;> simp [signed]
  have hvalue : (0 : ℚ) < coefficient * 10 ^ exponent := by positivity
  have hlog := log_natCast_mul_zpow hzero exponent
  have hlow := zpow_log_le hvalue
  have hhigh := lt_zpow_log_add_one hvalue
  rw [hlog] at hlow hhigh
  rw [ofDecimal, if_neg hzero]
  dsimp only
  -- The first digit decides whether the power of ten is expanded at all.
  split_ifs with hlarge hsmall
  · refine isNearest_infinite negative ?_
    rw [roundBinary_signed, abs_signed]
    refine (zpow_le_roundBinary (by norm_num) ?_).trans (le_abs_self _)
    exact (zpow_le_ten_zpow.trans (zpow_le_zpow_right₀ (by norm_num) hlarge)).trans hlow
  · refine isNearest_signedZero negative (roundBinary_of_lt ?_)
    rw [abs_signed, abs_of_pos hvalue]
    exact hhigh.trans_le ((zpow_le_zpow_right₀ (by norm_num) (by omega)).trans ten_zpow_le_zpow)
  · have hquotient := isNearest_ofQuotient negative
      (coefficient * 10 ^ exponent.toNat * unitsPerOne) (d := 10 ^ (-exponent).toNat)
      (Nat.pow_pos (by decide))
    have hexact : ((coefficient * 10 ^ exponent.toNat * unitsPerOne : ℕ) : ℚ)
        / (10 ^ (-exponent).toNat : ℕ) / unitsPerOne = coefficient * 10 ^ exponent := by
      have hten : (10 : ℚ) ^ (-exponent).toNat ≠ 0 := by positivity
      have hone := unitsPerOne_pos_rat.ne'
      push_cast
      rw [pow_toNat_eq exponent]
      field_simp
    rwa [hexact] at hquotient

end Nearest

end Double

end AngleSeries
