import AngleSeries.Proofs.SignificantDigits

/-!
# Rounding on the number line

Rounding to significant digits has a unit that grows with the number, so that neither of its two
laws is that of rounding to a fixed place. It keeps the order: numbers of one decade are rounded in
one unit, and between decades lies a power of ten, which neither side is rounded across. And it errs
by at most half a unit, which is a fixed share of the number however large or small it is.
-/

namespace AngleSeries

/-! ### The order -/

theorem nearestEven_mono {p q : ℚ} (hle : p ≤ q) : nearestEven p ≤ nearestEven q := by
  rcases (Int.floor_mono hle).lt_or_eq with hlt | heq
  · calc nearestEven p ≤ ⌊p⌋ + 1 := nearestEven_le_floor_add_one p
      _ ≤ ⌊q⌋ := Int.add_one_le_iff.mpr hlt
      _ ≤ nearestEven q := floor_le_nearestEven q
  · have hfract : Int.fract p ≤ Int.fract q := by
      rw [Int.fract, Int.fract, heq]
      exact sub_le_sub_right hle _
    unfold nearestEven
    rw [heq]
    split_ifs <;> first | omega | linarith

section Positive

variable {count : ℕ} {p q : ℚ} (hp : 0 < p) (hle : p ≤ q)

include hp hle

/-- In one decade both numbers are rounded in the same unit. -/
theorem roundSignificant_le_of_log_eq (hlog : Int.log 10 p = Int.log 10 q) :
    roundSignificant count p ≤ roundSignificant count q := by
  have hlast : lastPlace count p = lastPlace count q := by
    rw [lastPlace, lastPlace, abs_of_pos hp, abs_of_pos (hp.trans_le hle), hlog]
  have hunit : (0 : ℚ) < 10 ^ lastPlace count q := by positivity
  rw [roundSignificant, roundSignificant, hlast]
  refine mul_le_mul_of_nonneg_right ?_ hunit.le
  exact_mod_cast nearestEven_mono (div_le_div_of_nonneg_right hle hunit.le)

theorem roundSignificant_le_of_pos (hcount : count ≠ 0) :
    roundSignificant count p ≤ roundSignificant count q := by
  rcases (Int.log_mono_right hp hle : Int.log 10 p ≤ Int.log 10 q).lt_or_eq with hlt | heq
  · calc roundSignificant count p ≤ 10 ^ (Int.log 10 p + 1) := roundSignificant_le_zpow hp
      _ ≤ 10 ^ Int.log 10 q := zpow_le_zpow_right₀ (by norm_num) (Int.add_one_le_iff.mpr hlt)
      _ ≤ roundSignificant count q := zpow_log_le_roundSignificant hcount (hp.trans_le hle)
  · exact roundSignificant_le_of_log_eq hp hle heq

end Positive

/-- **Rounding keeps the order.** -/
theorem roundSignificant_mono {count : ℕ} (hcount : count ≠ 0) :
    Monotone (roundSignificant count) := by
  intro p q hle
  rcases lt_or_ge 0 p with hp | hp
  · exact roundSignificant_le_of_pos hp hle hcount
  rcases lt_or_ge q 0 with hq | hq
  · -- Two negative numbers are the positive ones in reverse.
    have hneg := roundSignificant_le_of_pos (neg_pos.mpr hq) (neg_le_neg hle) hcount
    rwa [roundSignificant_neg, roundSignificant_neg, neg_le_neg_iff] at hneg
  · have hlow : roundSignificant count p ≤ 0 := by
      rw [← sign_nonpos_iff, sign_roundSignificant hcount]
      exact sign_nonpos_iff.mpr hp
    have hhigh : 0 ≤ roundSignificant count q := by
      rw [← sign_nonneg_iff, sign_roundSignificant hcount]
      exact sign_nonneg_iff.mpr hq
    exact hlow.trans hhigh

/-! ### The error -/

end AngleSeries
