import AngleSeries.Proofs.Magnitudes
import Mathlib.Data.Rat.Floor

/-!
# Exact values of binary64 numbers

A finite number stands for a rational, its units over those of one. Comparing numbers is comparing
these rationals, and the floor of a number is that of its rational. A quotient is rounded to the
nearest number; what is already a number is left alone, and the larger of two quotients is not
rounded to the smaller number.
-/

namespace AngleSeries

theorem roundHalfEven_mul_right (n d : ℕ) {scale : ℕ} (hscale : 0 < scale) :
    roundHalfEven (n * scale) (d * scale) = roundHalfEven n d := by
  have hlow : 2 * (n % d * scale) < d * scale ↔ 2 * (n % d) < d := by
    rw [← mul_assoc, Nat.mul_lt_mul_right hscale]
  have hhigh : d * scale < 2 * (n % d * scale) ↔ d < 2 * (n % d) := by
    rw [← mul_assoc, Nat.mul_lt_mul_right hscale]
  simp only [roundHalfEven, Nat.mul_div_mul_right _ _ hscale, Nat.mul_mod_mul_right, hlow, hhigh]

theorem roundHalfEven_mono {m n d : ℕ} (hle : m ≤ n) : roundHalfEven m d ≤ roundHalfEven n d := by
  have hquotient : m / d ≤ n / d := Nat.div_le_div_right hle
  unfold roundHalfEven
  rcases hquotient.lt_or_eq with hlt | heq
  · dsimp only
    split_ifs <;> omega
  · -- With one quotient the remainders are ordered as the numbers are.
    have hm := Nat.div_add_mod m d
    have hn := Nat.div_add_mod n d
    rw [heq] at hm
    dsimp only
    rw [heq]
    split_ifs <;> omega

namespace Double

/-! ### Rounding a quotient -/

section Quotients

variable {m n d : ℕ}

theorem roundUnits_mul_right (n d : ℕ) {scale : ℕ} (hscale : 0 < scale) :
    roundUnits (n * scale) (d * scale) = roundUnits n d := by
  simp only [roundUnits, Nat.mul_div_mul_right _ _ hscale, mul_right_comm d scale,
    roundHalfEven_mul_right _ _ hscale]

/-- A quotient that is a number is not rounded. -/
theorem roundUnits_of_mul (hrep : Representable n) (hd : 0 < d) : roundUnits (n * d) d = n := by
  have hscaled := roundUnits_mul_right n 1 hd
  rw [one_mul] at hscaled
  rw [hscaled, roundUnits_of_representable hrep]

theorem roundUnits_le_pow (hd : 0 < d) : roundUnits n d ≤ 2 ^ ((n / d).log2 + 1) := by
  rw [roundUnits]
  set step := 2 ^ ((n / d).log2 - 52) with hstep
  obtain ⟨count, hcount⟩ : step ∣ 2 ^ ((n / d).log2 + 1) := pow_dvd_pow 2 (by omega)
  have hquotient : n / d + 1 ≤ 2 ^ ((n / d).log2 + 1) := Nat.lt_log2_self
  have hround : roundHalfEven n (d * step) ≤ count := by
    refine roundHalfEven_le (Nat.mul_pos hd (Nat.two_pow_pos _)) ?_
    calc n ≤ d * (n / d + 1) := (Nat.lt_mul_div_succ n hd).le
      _ ≤ d * 2 ^ ((n / d).log2 + 1) := Nat.mul_le_mul_left d hquotient
      _ = count * (d * step) := by rw [hcount]; ring
  calc roundHalfEven n (d * step) * step ≤ count * step := Nat.mul_le_mul_right step hround
    _ = 2 ^ ((n / d).log2 + 1) := by rw [hcount, mul_comm]

theorem pow_le_roundUnits_div (hne : n / d ≠ 0) : 2 ^ (n / d).log2 ≤ roundUnits n d := by
  rw [roundUnits]
  set step := 2 ^ ((n / d).log2 - 52) with hstep
  obtain ⟨count, hcount⟩ : step ∣ 2 ^ (n / d).log2 := pow_dvd_pow 2 (by omega)
  have hquotient : count ≤ n / (d * step) := by
    rw [← Nat.div_div_eq_div_mul, Nat.le_div_iff_mul_le (Nat.two_pow_pos _), mul_comm, ← hcount]
    exact Nat.log2_self_le hne
  calc 2 ^ (n / d).log2 = count * step := by rw [hcount, mul_comm]
    _ ≤ roundHalfEven n (d * step) * step :=
        Nat.mul_le_mul_right step (hquotient.trans (div_le_roundHalfEven _ _))

/-- Rounding keeps the order: on one grid because rounding to integers does, and otherwise because a
power of two lies between the results. -/
theorem roundUnits_mono (hd : 0 < d) (hle : m ≤ n) : roundUnits m d ≤ roundUnits n d := by
  have hquotient : m / d ≤ n / d := Nat.div_le_div_right hle
  have hlog : (m / d).log2 ≤ (n / d).log2 := by
    rw [Nat.log2_eq_log_two, Nat.log2_eq_log_two]
    exact Nat.log_mono_right hquotient
  by_cases hstep : (m / d).log2 - 52 = (n / d).log2 - 52
  · rw [roundUnits, roundUnits, hstep]
    exact Nat.mul_le_mul_right _ (roundHalfEven_mono hle)
  · have hne : n / d ≠ 0 := by
      intro hzero
      rw [hzero, Nat.log2_zero] at hlog hstep
      omega
    calc roundUnits m d ≤ 2 ^ ((m / d).log2 + 1) := roundUnits_le_pow hd
      _ ≤ 2 ^ (n / d).log2 := Nat.pow_le_pow_right (by decide) (by omega)
      _ ≤ roundUnits n d := pow_le_roundUnits_div hne

end Quotients

/-! ### Rationals -/

section Rationals

variable {x y : Double}

theorem toRat_finite (negative : Bool) (units : ℕ) (h : Representable units) :
    (finite negative units h).toRat
      = ((if negative then -(units : ℤ) else units : ℤ) : ℚ) / (unitsPerOne : ℚ) :=
  rfl

theorem unitsPerOne_pos_rat : (0 : ℚ) < (unitsPerOne : ℚ) :=
  Nat.cast_pos.mpr unitsPerOne_pos

theorem toRat_of_toInt? {i : ℤ} (hx : x.toInt? = some i) : x.toRat = i := by
  obtain ⟨negative, units, h, rfl, hunits⟩ := exists_of_toInt? hx
  rw [toRat_finite, hunits, Int.cast_mul, Int.cast_natCast,
    mul_div_cancel_right₀ _ unitsPerOne_pos_rat.ne']

theorem lt_iff_toRat (hx : x.isFinite = true) (hy : y.isFinite = true) :
    x.lt y = true ↔ x.toRat < y.toRat := by
  cases x with
  | nan => cases hx
  | infinite negative => cases hx
  | finite a m hm =>
      cases y with
      | nan => cases hy
      | infinite negative => cases hy
      | finite b n hn =>
          rw [lt, decide_eq_true_iff, toRat_finite, toRat_finite,
            div_lt_div_iff_of_pos_right unitsPerOne_pos_rat, Int.cast_lt]

theorem floor?_eq (hx : x.isFinite = true) : x.floor? = some ⌊x.toRat⌋ := by
  cases x with
  | nan => cases hx
  | infinite negative => cases hx
  | finite a m hm =>
      rw [toRat_finite, Rat.floor_intCast_div_natCast, floor?, signedUnits?, Option.map_some,
        Int.fdiv_eq_ediv_of_nonneg _ (Int.natCast_nonneg _)]

theorem toRat_ofQuotient {n d : ℕ} (hrep : Representable (roundUnits n d)) :
    (ofQuotient false n d).toRat = (roundUnits n d : ℚ) / (unitsPerOne : ℚ) := by
  rw [ofQuotient, ofUnits, dif_pos hrep, toRat_finite, if_neg Bool.false_ne_true, Int.cast_natCast]

/-- The quotient of whole numbers is rounded once. -/
theorem ofNat_div_ofNat {m n : ℕ} (hm : m ≤ 2 ^ 53) (hn : n ≤ 2 ^ 53) (hpos : 0 < n) :
    ofNat m / ofNat n = ofQuotient false (m * unitsPerOne) n := by
  have hne : n * unitsPerOne ≠ 0 := (Nat.mul_pos hpos unitsPerOne_pos).ne'
  rw [ofNat_eq_finite hm, ofNat_eq_finite hn, div_finite _ _ hne, Bool.xor_self, ofQuotient,
    roundUnits_mul_right _ _ unitsPerOne_pos, ofQuotient]

end Rationals

end Double

end AngleSeries
