import AngleSeries.Fraction.Order
import AngleSeries.Proofs.ExactFractions
import AngleSeries.Proofs.NearestWholes
import AngleSeries.Proofs.Outcomes

/-!
# The order of fractions

A magnitude lies within one order of ten to its size, so sizes more than one apart decide, and for
all others the exponents are close enough to be brought to one power of ten exactly. But sizes are
binary64 sums. Beyond `2 ^ 53` a size of the form `4 * k + 1` is rounded down, and adding one to it
changes nothing: a size one above it then looks as if it were more than one above. That is the only
slip, and it does harm only if the fraction of the greater size is not the greater one.
-/

namespace AngleSeries

namespace Numeral

theorem zpow_digitCount_bounds {n : ℕ} (hne : n ≠ 0) :
    (10 : ℚ) ^ ((digitCount n : ℤ) - 1) ≤ n ∧ (n : ℚ) < 10 ^ (digitCount n : ℤ) := by
  constructor
  · have hlow : 10 ^ Nat.log 10 n ≤ n := Nat.pow_log_le_self 10 hne
    rw [digitCount_eq_log, Nat.cast_add, Nat.cast_one, add_sub_cancel_right, zpow_natCast]
    exact_mod_cast hlow
  · rw [zpow_natCast]
    exact_mod_cast lt_pow_digitCount n

end Numeral

/-- Pairs that are ordered alike compare alike. -/
theorem compare_congr {α β : Type} [LinearOrder α] [LinearOrder β] {a b : α} {c d : β}
    (hlt : a < b ↔ c < d) (hgt : b < a ↔ d < c) : compare a b = compare c d := by
  rcases lt_trichotomy c d with h | h | h
  · rw [compare_lt_iff_lt.mpr h, compare_lt_iff_lt.mpr (hlt.mpr h)]
  · have heq : a = b :=
      le_antisymm (not_lt.mp fun hab => (hgt.mp hab).ne' h) (not_lt.mp fun hab => (hlt.mp hab).ne h)
    rw [compare_eq_iff_eq.mpr h, compare_eq_iff_eq.mpr heq]
  · rw [compare_gt_iff_gt.mpr h, compare_gt_iff_gt.mpr (hgt.mpr h)]

namespace Fraction

open Numeral

/-- The decimal size, exactly. -/
def size (value : Fraction) : ℤ :=
  (digitCount value.numerator.natAbs : ℤ) - digitCount value.denominator
    + value.exponent.toInt?.getD 0

/-- A fraction as it can be built and kept. -/
structure Storable (value : Fraction) : Prop where
  exponent : value.exponent.isSafeInteger = true
  numerator : digitCount value.numerator.natAbs < digitBound
  denominator : digitCount value.denominator < digitBound

/-- A fraction that may be the product of a few quantities, each of which can be kept. -/
structure Sized (value : Fraction) : Prop where
  exponent : value.exponent.isSafeInteger = true
  numerator : digitCount value.numerator.natAbs < 10 * digitBound
  denominator : digitCount value.denominator < 10 * digitBound

theorem Storable.sized {value : Fraction} (hvalue : value.Storable) : value.Sized where
  exponent := hvalue.exponent
  numerator := hvalue.numerator.trans (by decide)
  denominator := hvalue.denominator.trans (by decide)

/-! ### Magnitudes -/

section Magnitude

variable {value : Fraction} {e : ℤ} (he : value.exponent.toInt? = some e)

include he

theorem abs_toRat :
    |value.toRat| = (value.numerator.natAbs : ℚ) / value.denominator * 10 ^ e := by
  rw [toRat, he, Option.getD_some, abs_mul, abs_div, Nat.abs_cast, Nat.cast_natAbs, Int.cast_abs,
    abs_of_pos (by positivity : (0 : ℚ) < 10 ^ e)]

/-- A magnitude lies within one order of ten to its size. -/
theorem abs_toRat_bounds (hne : value.numerator ≠ 0) :
    (10 : ℚ) ^ (value.size - 1) < |value.toRat| ∧ |value.toRat| < 10 ^ (value.size + 1) := by
  obtain ⟨hnLow, hnHigh⟩ := zpow_digitCount_bounds (Int.natAbs_ne_zero.mpr hne)
  obtain ⟨hdLow, hdHigh⟩ := zpow_digitCount_bounds value.positive.ne'
  have hn : (0 : ℚ) < value.numerator.natAbs := by
    exact_mod_cast Int.natAbs_pos.mpr hne
  have hd : (0 : ℚ) < value.denominator := by exact_mod_cast value.positive
  have hten : (0 : ℚ) < 10 ^ e := by positivity
  rw [abs_toRat he, size, he, Option.getD_some]
  generalize (digitCount value.numerator.natAbs : ℤ) = p at hnLow hnHigh
  generalize (digitCount value.denominator : ℤ) = q at hdLow hdHigh
  constructor
  · calc (10 : ℚ) ^ (p - q + e - 1) = 10 ^ (p - 1) / 10 ^ q * 10 ^ e := by
          rw [← zpow_sub₀ (by norm_num), ← zpow_add₀ (by norm_num)]
          congr 1
          ring
      _ < (value.numerator.natAbs : ℚ) / value.denominator * 10 ^ e := by
          refine mul_lt_mul_of_pos_right ?_ hten
          exact div_lt_div₀' hnLow hdHigh hn hd
  · calc (value.numerator.natAbs : ℚ) / value.denominator * 10 ^ e
        < 10 ^ p / 10 ^ (q - 1) * 10 ^ e := by
          refine mul_lt_mul_of_pos_right ?_ hten
          exact div_lt_div₀ hnHigh hdLow (by positivity) (by positivity)
      _ = (10 : ℚ) ^ (p - q + e + 1) := by
          rw [← zpow_sub₀ (by norm_num), ← zpow_add₀ (by norm_num)]
          congr 1
          ring

end Magnitude

/-- Sizes more than one apart tell magnitudes apart. -/
theorem abs_toRat_lt_of_size {a b : Fraction} {i j : ℤ} (hi : a.exponent.toInt? = some i)
    (hj : b.exponent.toInt? = some j) (ha : a.numerator ≠ 0) (hb : b.numerator ≠ 0)
    (hsize : a.size + 1 < b.size) : |a.toRat| < |b.toRat| :=
  calc |a.toRat| < 10 ^ (a.size + 1) := (abs_toRat_bounds hi ha).2
    _ ≤ 10 ^ (b.size - 1) := zpow_le_zpow_right₀ (by norm_num) (by omega)
    _ < |b.toRat| := (abs_toRat_bounds hj hb).1

/-- The cross products stand in the order of the magnitudes. -/
theorem compare_crossProducts {a b : Fraction} {i j : ℤ} (hi : a.exponent.toInt? = some i)
    (hj : b.exponent.toInt? = some j) :
    compare (crossProducts a b (i - j)).1 (crossProducts a b (i - j)).2
      = compare |a.toRat| |b.toRat| := by
  have ha : (0 : ℚ) < a.denominator := by exact_mod_cast a.positive
  have hb : (0 : ℚ) < b.denominator := by exact_mod_cast b.positive
  -- both magnitudes times one positive number are the cross products
  have hscale : (0 : ℚ) < a.denominator * b.denominator * 10 ^ (((i - j).toNat : ℤ) - i) := by
    positivity
  have hleft : ((crossProducts a b (i - j)).1 : ℚ)
      = |a.toRat| * (a.denominator * b.denominator * 10 ^ (((i - j).toNat : ℤ) - i)) := by
    rw [abs_toRat hi, zpow_sub₀ (by norm_num), zpow_natCast, crossProducts]
    push_cast
    field_simp
  have hright : ((crossProducts a b (i - j)).2 : ℚ)
      = |b.toRat| * (a.denominator * b.denominator * 10 ^ (((i - j).toNat : ℤ) - i)) := by
    have hexponent : ((i - j).toNat : ℤ) - i = (-(i - j)).toNat - j := by omega
    rw [abs_toRat hj, hexponent, zpow_sub₀ (by norm_num), zpow_natCast, crossProducts]
    push_cast
    field_simp
  refine compare_congr ?_ ?_
  · rw [← Nat.cast_lt (α := ℚ), hleft, hright, mul_lt_mul_iff_left₀ hscale]
  · rw [← Nat.cast_lt (α := ℚ), hleft, hright, mul_lt_mul_iff_left₀ hscale]

/-! ### Sizes as binary64 sums -/

/-- The size of `a` is rounded down so far that one more still falls short of that of `b`, which is
the next one. -/
def Slips (a b : Fraction) : Prop :=
  b.size = a.size + 1 ∧ a.size % 4 = 1 ∧ 2 ^ 53 < a.size.natAbs

/-- Whether one more than a rounded size stays below another. -/
def FarBelow (i j : ℤ) : Prop :=
  Double.nearWhole (Double.nearWhole i + 1) < Double.nearWhole j

section Spread

variable {value : Fraction} (hvalue : value.Sized)

include hvalue

theorem Sized.exists_exponent : ∃ e, value.exponent.toInt? = some e ∧ |e| ≤ Double.maxSafe :=
  Double.exists_of_isSafeInteger hvalue.exponent

theorem Sized.natAbs_size_le : value.size.natAbs ≤ 2 ^ 53 + 10 ^ 13 := by
  obtain ⟨e, he, hbound⟩ := hvalue.exists_exponent
  have hn : digitCount value.numerator.natAbs < 10 ^ 13 := hvalue.numerator
  have hd : digitCount value.denominator < 10 ^ 13 := hvalue.denominator
  have hmax : Double.maxSafe = 2 ^ 53 - 1 := rfl
  rw [hmax, abs_le] at hbound
  rw [size, he, Option.getD_some]
  omega

theorem Sized.toInt?_spread :
    value.spread.toInt? = some (Double.nearWhole value.size)
      ∧ (value.spread + 1).toInt? = some (Double.nearWhole (Double.nearWhole value.size + 1)) := by
  obtain ⟨e, he, hbound⟩ := hvalue.exists_exponent
  have hsize := hvalue.natAbs_size_le
  have hn : digitCount value.numerator.natAbs < 10 ^ 13 := hvalue.numerator
  have hd : digitCount value.denominator < 10 ^ 13 := hvalue.denominator
  have hcounts := Double.toInt?_ofInt
    (i := (digitCount value.numerator.natAbs : ℤ) - digitCount value.denominator) (by omega)
  have hsum : value.size
      = (digitCount value.numerator.natAbs : ℤ) - digitCount value.denominator + e := by
    rw [size, he, Option.getD_some]
  have hspread : value.spread.toInt? = some (Double.nearWhole value.size) := by
    rw [hsum]
    exact Double.toInt?_add_near hcounts he (by omega)
  have hnear : (Double.nearWhole value.size + 1).natAbs ≤ 2 ^ 54 := by
    rw [Double.nearWhole]
    split_ifs <;> omega
  exact ⟨hspread, Double.toInt?_add_near hspread (Double.toInt?_ofNat (by decide)) hnear⟩

end Spread

section Pair

variable {a b : Fraction} (ha : a.Sized) (hb : b.Sized)

include ha hb

theorem spread_lt_iff : (a.spread + 1).lt b.spread = true ↔ FarBelow a.size b.size :=
  Double.lt_iff_of_toInt? ha.toInt?_spread.2 hb.toInt?_spread.1

omit hb in
theorem farBelow_of_slips (hslips : Slips a b) : FarBelow a.size b.size := by
  obtain ⟨hnext, hfour, hlarge⟩ := hslips
  have hsize := ha.natAbs_size_le
  rw [FarBelow, hnext]
  simp only [Double.nearWhole]
  split_ifs <;> omega

/-- What looks far below is far below, unless it slips. -/
theorem size_lt_of_farBelow (hfar : FarBelow a.size b.size) :
    a.size + 1 < b.size ∨ Slips a b := by
  have hi := ha.natAbs_size_le
  have hj := hb.natAbs_size_le
  rw [FarBelow] at hfar
  rw [Slips]
  generalize a.size = i at *
  generalize b.size = j at *
  simp only [Double.nearWhole] at hfar
  split_ifs at hfar <;> omega

theorem size_le_of_not_farBelow (hnear : ¬ FarBelow a.size b.size) : b.size ≤ a.size + 4 := by
  have hi := ha.natAbs_size_le
  have hj := hb.natAbs_size_le
  rw [FarBelow] at hnear
  generalize a.size = i at *
  generalize b.size = j at *
  simp only [Double.nearWhole] at hnear
  split_ifs at hnear <;> omega

end Pair

/-! ### Verdicts -/

section Verdict

variable {a b : Fraction} (ha : a.Sized) (hb : b.Sized)

include ha hb

/-- Exponents are subtracted exactly if the sizes are close. -/
theorem gap_eq {i j : ℤ} (hi : a.exponent.toInt? = some i) (hj : b.exponent.toInt? = some j)
    (hsizes : (a.size - b.size).natAbs ≤ 4) : gap a b = .ok (i - j) := by
  have haNumerator : digitCount a.numerator.natAbs < 10 ^ 13 := ha.numerator
  have haDenominator : digitCount a.denominator < 10 ^ 13 := ha.denominator
  have hbNumerator : digitCount b.numerator.natAbs < 10 ^ 13 := hb.numerator
  have hbDenominator : digitCount b.denominator < 10 ^ 13 := hb.denominator
  have hexact : (a.exponent - b.exponent).toInt? = some (i - j) := by
    refine Double.toInt?_sub hi hj ?_
    rw [size, size, hi, hj, Option.getD_some, Option.getD_some] at hsizes
    omega
  rw [gap]
  split
  case h_1 hnan =>
    rw [hnan] at hexact
    cases hexact
  case h_2 => rw [hexact]

/-- **How magnitudes compare.** By their values, unless one of them slips. -/
theorem Sized.compareMagnitudes_cases (haNe : a.numerator ≠ 0) (hbNe : b.numerator ≠ 0) :
    Slips a b ∧ compareMagnitudes a b = .ok .lt
      ∨ Slips b a ∧ compareMagnitudes a b = .ok .gt
      ∨ ¬ Slips a b ∧ ¬ Slips b a
        ∧ compareMagnitudes a b = .ok (compare |a.toRat| |b.toRat|) := by
  obtain ⟨i, hi, -⟩ := ha.exists_exponent
  obtain ⟨j, hj, -⟩ := hb.exists_exponent
  rw [compareMagnitudes]
  by_cases hab : (a.spread + 1).lt b.spread = true
  · rw [if_pos hab]
    rcases size_lt_of_farBelow ha hb ((spread_lt_iff ha hb).mp hab) with hsize | hslips
    · have hlt := abs_toRat_lt_of_size hi hj haNe hbNe hsize
      right; right
      refine ⟨?_, ?_, by rw [compare_lt_iff_lt.mpr hlt]⟩
      · rintro ⟨hnext, -⟩
        omega
      · rintro ⟨hnext, -⟩
        omega
    · exact .inl ⟨hslips, rfl⟩
  by_cases hba : (b.spread + 1).lt a.spread = true
  · rw [if_neg hab, if_pos hba]
    rcases size_lt_of_farBelow hb ha ((spread_lt_iff hb ha).mp hba) with hsize | hslips
    · have hgt := abs_toRat_lt_of_size hj hi hbNe haNe hsize
      right; right
      refine ⟨?_, ?_, by rw [compare_gt_iff_gt.mpr hgt]⟩
      · rintro ⟨hnext, -⟩
        omega
      · rintro ⟨hnext, -⟩
        omega
    · exact .inr (.inl ⟨hslips, rfl⟩)
  · rw [if_neg hab, if_neg hba]
    rw [spread_lt_iff ha hb] at hab
    rw [spread_lt_iff hb ha] at hba
    have hle := size_le_of_not_farBelow ha hb hab
    have hge := size_le_of_not_farBelow hb ha hba
    refine .inr (.inr ⟨mt (farBelow_of_slips ha) hab, mt (farBelow_of_slips hb) hba, ?_⟩)
    rw [gap_eq ha hb hi hj (by omega), Outcome.ok_bind]
    exact congrArg Except.ok (compare_crossProducts hi hj)

/-- Sizes up to `2 ^ 53` are not rounded, and then magnitudes compare by their values. -/
theorem compareMagnitudes_of_size_le (haNe : a.numerator ≠ 0) (hbNe : b.numerator ≠ 0)
    (haSize : a.size.natAbs ≤ 2 ^ 53) (hbSize : b.size.natAbs ≤ 2 ^ 53) :
    compareMagnitudes a b = .ok (compare |a.toRat| |b.toRat|) := by
  rcases ha.compareMagnitudes_cases hb haNe hbNe with
    ⟨⟨-, -, hlarge⟩, -⟩ | ⟨⟨-, -, hlarge⟩, -⟩ | ⟨-, -, hverdict⟩
  · exact absurd hlarge haSize.not_gt
  · exact absurd hlarge hbSize.not_gt
  · exact hverdict

end Verdict

theorem compareMagnitudes_cases {a b : Fraction} (ha : a.Storable) (hb : b.Storable)
    (haNe : a.numerator ≠ 0) (hbNe : b.numerator ≠ 0) :
    Slips a b ∧ compareMagnitudes a b = .ok .lt
      ∨ Slips b a ∧ compareMagnitudes a b = .ok .gt
      ∨ ¬ Slips a b ∧ ¬ Slips b a
        ∧ compareMagnitudes a b = .ok (compare |a.toRat| |b.toRat|) :=
  ha.sized.compareMagnitudes_cases hb.sized haNe hbNe

/-! ### Signs -/

theorem toRat_lt_of_sign {a b : Fraction} (hsign : a.sign < b.sign) : a.toRat < b.toRat := by
  rw [sign, sign] at hsign
  rcases lt_trichotomy a.numerator 0 with ha | ha | ha
  · rcases lt_or_ge b.numerator 0 with hb | hb
    · rw [Int.sign_eq_neg_one_of_neg ha, Int.sign_eq_neg_one_of_neg hb] at hsign
      exact absurd hsign (lt_irrefl _)
    · exact (toRat_neg_iff.mpr ha).trans_le (not_lt.mp (mt toRat_neg_iff.mp hb.not_gt))
  · rw [ha, Int.sign_zero, Int.sign_pos_iff] at hsign
    rw [toRat_eq_zero_iff.mpr ha]
    exact toRat_pos_iff.mpr hsign
  · rw [Int.sign_eq_one_of_pos ha] at hsign
    rcases Int.sign_trichotomy b.numerator with hb | hb | hb <;> omega

/-! ### The order -/

/-- `a` is taken to be the lesser magnitude because its size slips, and it is not. -/
structure Misjudged (a b : Fraction) : Prop where
  sign : a.sign = b.sign
  nonzero : a.sign ≠ 0
  slips : Slips a b
  le : |b.toRat| ≤ |a.toRat|

section Order

variable {a b : Fraction}

theorem order_of_sign_ne (hsign : a.sign ≠ b.sign) :
    a.order b = .ok (compare a.toRat b.toRat) ∧ a.toRat ≠ b.toRat := by
  rw [order, if_pos hsign]
  rcases lt_or_gt_of_ne hsign with hlt | hgt
  · have hrat := toRat_lt_of_sign hlt
    rw [if_pos hlt, compare_lt_iff_lt.mpr hrat]
    exact ⟨rfl, hrat.ne⟩
  · have hrat := toRat_lt_of_sign hgt
    rw [if_neg hgt.not_gt, compare_gt_iff_gt.mpr hrat]
    exact ⟨rfl, hrat.ne'⟩

theorem order_of_zero (ha : a.sign = 0) (hb : b.sign = 0) :
    a.order b = .ok .eq ∧ a.toRat = b.toRat := by
  have hrat : a.toRat = b.toRat := by
    rw [toRat_eq_zero_iff.mpr (Int.sign_eq_zero_iff_zero.mp ha),
      toRat_eq_zero_iff.mpr (Int.sign_eq_zero_iff_zero.mp hb)]
  rw [order, if_neg (not_not.mpr (ha.trans hb.symm)), if_pos ha]
  exact ⟨rfl, hrat⟩

/-- Two negative numbers stand in the reverse order of their magnitudes. -/
theorem compare_toRat (hsign : a.sign = b.sign) (hne : a.sign ≠ 0) :
    compare a.toRat b.toRat = if 0 < a.sign then compare |a.toRat| |b.toRat|
      else (compare |a.toRat| |b.toRat|).swap := by
  rw [sign, sign] at hsign
  rw [sign] at hne ⊢
  rcases lt_or_gt_of_ne (mt Int.sign_eq_zero_iff_zero.mpr hne) with ha | ha
  · have hb : b.numerator < 0 := by
      rwa [Int.sign_eq_neg_one_of_neg ha, eq_comm, Int.sign_eq_neg_one_iff_neg] at hsign
    rw [if_neg (by rw [Int.sign_eq_neg_one_of_neg ha]; decide), abs_of_neg (toRat_neg_iff.mpr ha),
      abs_of_neg (toRat_neg_iff.mpr hb), ← Std.OrientedOrd.eq_swap]
    exact compare_congr neg_lt_neg_iff.symm neg_lt_neg_iff.symm
  · have hb : 0 < b.numerator := by
      rwa [Int.sign_eq_one_of_pos ha, eq_comm, Int.sign_eq_one_iff_pos] at hsign
    rw [if_pos (Int.sign_pos_iff.mpr ha), abs_of_pos (toRat_pos_iff.mpr ha),
      abs_of_pos (toRat_pos_iff.mpr hb)]

/-- Every verdict on two magnitudes of one sign, as a verdict on the fractions. -/
theorem order_of_compareMagnitudes (hsign : a.sign = b.sign) (hne : a.sign ≠ 0)
    {verdict : Ordering} (hverdict : compareMagnitudes a b = .ok verdict) :
    a.order b = .ok (if 0 < a.sign then verdict else verdict.swap) := by
  rw [order, if_neg (not_not.mpr hsign), if_neg hne, hverdict]
  rfl

theorem order_eq_compare_iff (hsign : a.sign = b.sign) (hne : a.sign ≠ 0) {verdict : Ordering}
    (hverdict : compareMagnitudes a b = .ok verdict) :
    a.order b = .ok (compare a.toRat b.toRat) ↔ verdict = compare |a.toRat| |b.toRat| := by
  rw [order_of_compareMagnitudes hsign hne hverdict, compare_toRat hsign hne, Except.ok.injEq]
  split
  · rfl
  · exact Ordering.swap_inj

/-- A pair whose size slips is judged aright if the greater size has the greater magnitude. -/
theorem not_misjudged_iff (hsign : a.sign = b.sign) (hne : a.sign ≠ 0) (hslips : Slips a b) :
    ¬ Misjudged a b ↔ |a.toRat| < |b.toRat| := by
  rw [← not_le, not_iff_not]
  exact ⟨Misjudged.le, fun hle => ⟨hsign, hne, hslips, hle⟩⟩

/-- Fractions of sizes that are not rounded stand in the order of their values. -/
theorem order_of_size_le (ha : a.Sized) (hb : b.Sized) (haSize : a.size.natAbs ≤ 2 ^ 53)
    (hbSize : b.size.natAbs ≤ 2 ^ 53) : a.order b = .ok (compare a.toRat b.toRat) := by
  by_cases hsign : a.sign = b.sign
  case neg => exact (order_of_sign_ne hsign).1
  by_cases hzero : a.sign = 0
  · obtain ⟨hequal, hrat⟩ := order_of_zero hzero (hsign ▸ hzero)
    rw [hequal, compare_eq_iff_eq.mpr hrat]
  · have hbSign : b.sign ≠ 0 := hsign ▸ hzero
    have haNe : a.numerator ≠ 0 := mt Int.sign_eq_zero_iff_zero.mpr hzero
    have hbNe : b.numerator ≠ 0 := mt Int.sign_eq_zero_iff_zero.mpr hbSign
    have hverdict := compareMagnitudes_of_size_le ha hb haNe hbNe haSize hbSize
    exact (order_eq_compare_iff hsign hzero hverdict).mpr rfl

theorem toRat_eq_of_order_exact (hexact : a.order b = .ok (compare a.toRat b.toRat))
    (heq : a.order b = .ok .eq) : a.toRat = b.toRat :=
  compare_eq_iff_eq.mp (Except.ok.inj (hexact.symm.trans heq))

/-- **When the order is the order of the values.** Exactly if neither fraction is misjudged. There
is a verdict either way, and fractions that are found equal are. -/
theorem order_exact_iff (ha : a.Storable) (hb : b.Storable) :
    (a.order b = .ok (compare a.toRat b.toRat) ↔ ¬ Misjudged a b ∧ ¬ Misjudged b a)
      ∧ (∃ verdict, a.order b = .ok verdict)
      ∧ (a.order b = .ok .eq → a.toRat = b.toRat) := by
  by_cases hsign : a.sign = b.sign
  case neg =>
    obtain ⟨hexact, hrat⟩ := order_of_sign_ne hsign
    exact ⟨iff_of_true hexact ⟨fun h => hsign h.sign, fun h => hsign h.sign.symm⟩, ⟨_, hexact⟩,
      toRat_eq_of_order_exact hexact⟩
  by_cases hzero : a.sign = 0
  · obtain ⟨hequal, hrat⟩ := order_of_zero hzero (hsign ▸ hzero)
    have hexact : a.order b = .ok (compare a.toRat b.toRat) := by
      rw [hequal, compare_eq_iff_eq.mpr hrat]
    exact ⟨iff_of_true hexact ⟨fun h => h.nonzero hzero, fun h => h.nonzero (hsign ▸ hzero)⟩,
      ⟨_, hexact⟩, fun _ => hrat⟩
  have hnumerators : a.numerator ≠ 0 ∧ b.numerator ≠ 0 := by
    refine ⟨mt Int.sign_eq_zero_iff_zero.mpr hzero, mt Int.sign_eq_zero_iff_zero.mpr ?_⟩
    rwa [hsign, sign] at hzero
  have hapart : Slips a b → ¬ Slips b a := by
    rintro ⟨hab, -⟩ ⟨hba, -⟩
    omega
  rcases compareMagnitudes_cases ha hb hnumerators.1 hnumerators.2 with
    ⟨hslips, hverdict⟩ | ⟨hslips, hverdict⟩ | ⟨hab, hba, hverdict⟩
  · have hother : ¬ Misjudged b a := fun h => hapart hslips h.slips
    refine ⟨?_, ⟨_, order_of_compareMagnitudes hsign hzero hverdict⟩, ?_⟩
    · rw [order_eq_compare_iff hsign hzero hverdict, eq_comm, compare_lt_iff_lt,
        and_iff_left hother, not_misjudged_iff hsign hzero hslips]
    · rw [order_of_compareMagnitudes hsign hzero hverdict]
      split <;> rintro ⟨⟩
  · have hother : ¬ Misjudged a b := fun h => hapart h.slips hslips
    refine ⟨?_, ⟨_, order_of_compareMagnitudes hsign hzero hverdict⟩, ?_⟩
    · rw [order_eq_compare_iff hsign hzero hverdict, eq_comm, compare_gt_iff_gt,
        and_iff_right hother, not_misjudged_iff hsign.symm (hsign ▸ hzero) hslips]
    · rw [order_of_compareMagnitudes hsign hzero hverdict]
      split <;> rintro ⟨⟩
  · have hexact := (order_eq_compare_iff hsign hzero hverdict).mpr rfl
    exact ⟨iff_of_true hexact ⟨fun h => hab h.slips, fun h => hba h.slips⟩, ⟨_, hexact⟩,
      toRat_eq_of_order_exact hexact⟩

end Order

/-! ### Two pairs -/

def unreduced : Fraction := ⟨20, 18, 0, by decide⟩

def shifted : Fraction := ⟨1, 9, 1, by decide⟩

/-- Two forms of one number, whose sizes differ. -/
theorem unreduced_order : unreduced.Storable ∧ shifted.Storable
    ∧ unreduced.order shifted = .ok (compare unreduced.toRat shifted.toRat) := by
  have hunreduced : unreduced.Storable := ⟨by decide +kernel, by decide +kernel, by decide +kernel⟩
  have hshifted : shifted.Storable := ⟨by decide +kernel, by decide +kernel, by decide +kernel⟩
  refine ⟨hunreduced, hshifted, (order_exact_iff hunreduced hshifted).1.mpr ⟨?_, ?_⟩⟩
  · rintro ⟨-, -, ⟨-, -, hlarge⟩, -⟩
    exact absurd hlarge (by decide +kernel)
  · rintro ⟨-, -, ⟨-, -, hlarge⟩, -⟩
    exact absurd hlarge (by decide +kernel)

/-- The greatest exponent that a fraction can have. -/
def greatestExponent : Double := Double.ofInt Double.maxSafe

def nineHundredNinetyNine : Fraction := ⟨999, 1, greatestExponent, by decide⟩

def ninthOfThousand : Fraction := ⟨1000, 9, greatestExponent, by decide⟩

/-- At the greatest exponent `999` is found to be less than `1000 / 9`. -/
theorem not_order_exact : ¬ ∀ a b : Fraction, a.Storable → b.Storable →
    a.order b = .ok (compare a.toRat b.toRat) := by
  intro hexact
  have hfound : nineHundredNinetyNine.order ninthOfThousand = .ok .lt := by decide +kernel
  have hgreater : ninthOfThousand.toRat < nineHundredNinetyNine.toRat := by
    refine mul_lt_mul_of_pos_right ?_ (by positivity)
    rw [ninthOfThousand, nineHundredNinetyNine]
    norm_num
  have horder := hexact nineHundredNinetyNine ninthOfThousand
    ⟨by decide +kernel, by decide +kernel, by decide +kernel⟩
    ⟨by decide +kernel, by decide +kernel, by decide +kernel⟩
  rw [hfound, compare_gt_iff_gt.mpr hgreater] at horder
  cases horder

end Fraction

end AngleSeries
