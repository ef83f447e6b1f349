import AngleSeries.Proofs.BinaryRounding

/-!
# Discarding whole turns

What is left of a number without whole turns is a whole number of units again. A number that is not
negative keeps exactly that, because the remainder of two numbers is a number. A negative one lacks
its remainder to the next turn, so what it keeps is a sum, and the sum is rounded. A number that is
barely negative is rounded to a full turn in this way, which then counts as none.
-/

namespace AngleSeries

/-- What is left of a number without whole periods; it lies between zero and one period. -/
def flooredRemainder (q period : ℚ) : ℚ :=
  q - ⌊q / period⌋ * period

theorem flooredRemainder_eq {q period r : ℚ} (k : ℤ) (hnonneg : 0 ≤ r) (hlt : r < period)
    (hq : q = k * period + r) : flooredRemainder q period = r := by
  have hperiod : 0 < period := hnonneg.trans_lt hlt
  have hfloor : ⌊q / period⌋ = k := by
    rw [Int.floor_eq_iff, le_div_iff₀ hperiod, div_lt_iff₀ hperiod, hq]
    constructor <;> linarith
  rw [flooredRemainder, hfloor, hq]
  ring

namespace Angle

open Double

theorem toRat_unsigned {m : ℕ} (hm : Representable m) :
    (finite false m hm).toRat = (m : ℚ) / unitsPerOne := by
  rw [Double.toRat_finite, if_neg Bool.false_ne_true, Int.cast_natCast]

theorem toRat_tau : tau.toRat = (turnUnits : ℚ) / unitsPerOne := by
  rw [tau_eq, toRat_unsigned]

theorem toRat_tau_pos : 0 < tau.toRat := by
  rw [toRat_tau]
  exact div_pos (Nat.cast_pos.mpr turnUnits_pos) unitsPerOne_pos_rat

section Units

variable (negative : Bool) {m : ℕ} (hm : Representable m)

/-- The units of a number are whole turns and what lies beyond them. -/
theorem exists_turns (m : ℕ) : ∃ k : ℤ,
    (if negative then -(m : ℤ) else m) = k * turnUnits + unitsBeyond negative m := by
  have hsplit : (turnUnits : ℤ) * (m / turnUnits : ℕ) + (m % turnUnits : ℕ) = m := by
    exact_mod_cast Nat.div_add_mod m turnUnits
  have hlt : m % turnUnits < turnUnits := Nat.mod_lt m turnUnits_pos
  rw [unitsBeyond]
  cases negative with
  | false =>
      refine ⟨(m / turnUnits : ℕ), ?_⟩
      rw [if_neg Bool.false_ne_true, if_neg (fun h => Bool.false_ne_true h.1), mul_comm, hsplit]
  | true =>
      rw [if_pos rfl]
      split
      case isTrue =>
        refine ⟨-(m / turnUnits : ℕ) - 1, ?_⟩
        rw [Nat.cast_sub hlt.le]
        linarith
      case isFalse hwhole =>
        have hzero : m % turnUnits = 0 := by simpa using hwhole
        refine ⟨-(m / turnUnits : ℕ), ?_⟩
        rw [hzero, Nat.cast_zero] at hsplit ⊢
        linarith

theorem flooredRemainder_finite : flooredRemainder (finite negative m hm).toRat tau.toRat
    = (unitsBeyond negative m : ℚ) / unitsPerOne := by
  obtain ⟨k, hk⟩ := exists_turns negative m
  refine flooredRemainder_eq k (by positivity) ?_ ?_
  · rw [toRat_tau, div_lt_div_iff_of_pos_right unitsPerOne_pos_rat, Nat.cast_lt]
    exact unitsBeyond_lt negative m
  · rw [Double.toRat_finite, hk, toRat_tau]
    push_cast
    ring

theorem roundBinary_flooredRemainder :
    roundBinary (flooredRemainder (finite negative m hm).toRat tau.toRat)
      = (roundUnits (unitsBeyond negative m) 1 : ℚ) / unitsPerOne := by
  have hround := roundUnits_div_unitsPerOne (unitsBeyond negative m) Nat.one_pos
  rw [Nat.cast_one, div_one] at hround
  rw [flooredRemainder_finite, hround]

/-- What comes out is less than a turn, without a sign, and the rounded remainder unless that is a
full turn. -/
theorem exists_floorMod : ∃ units h, floorMod (finite negative m hm) tau = finite false units h
    ∧ units < turnUnits
    ∧ (units : ℚ) / unitsPerOne =
      if roundBinary (flooredRemainder (finite negative m hm).toRat tau.toRat) = tau.toRat then 0
      else roundBinary (flooredRemainder (finite negative m hm).toRat tau.toRat) := by
  have hfull : roundBinary (flooredRemainder (finite negative m hm).toRat tau.toRat) = tau.toRat
      ↔ roundUnits (unitsBeyond negative m) 1 = turnUnits := by
    rw [roundBinary_flooredRemainder, toRat_tau, div_left_inj' unitsPerOne_pos_rat.ne',
      Nat.cast_inj]
  rw [floorMod_finite, if_congr hfull rfl rfl]
  split
  case isTrue =>
    exact ⟨0, representable_zero, zero_eq_signedZero, turnUnits_pos, by
      rw [Nat.cast_zero, zero_div]⟩
  case isFalse hne =>
    exact ⟨_, representable_beyond negative, rfl,
      lt_of_le_of_ne (roundUnits_beyond_le negative) hne,
      (roundBinary_flooredRemainder negative hm).symm⟩

/-- A number that is not negative has a remainder that is a number. -/
theorem floorMod_of_nonneg (hnonneg : 0 ≤ (finite negative m hm).toRat) :
    (floorMod (finite negative m hm) tau).toRat
      = flooredRemainder (finite negative m hm).toRat tau.toRat := by
  have hleft := representable_mod hm representable_turn turnUnits_pos
  have hbeyond : unitsBeyond negative m = m % turnUnits := by
    refine if_neg ?_
    rintro ⟨rfl, hne⟩
    have hpos : 0 < m := Nat.pos_of_ne_zero fun hzero => hne (by rw [hzero, Nat.zero_mod])
    rw [Double.toRat_finite, if_pos rfl, Int.cast_neg, Int.cast_natCast, neg_div, neg_nonneg]
      at hnonneg
    exact hnonneg.not_gt (div_pos (Nat.cast_pos.mpr hpos) unitsPerOne_pos_rat)
  have hexact : roundUnits (unitsBeyond negative m) 1 = unitsBeyond negative m := by
    rw [hbeyond, roundUnits_of_representable hleft]
  have hshort : roundUnits (unitsBeyond negative m) 1 ≠ turnUnits := by
    rw [hexact]
    exact (unitsBeyond_lt negative m).ne
  rw [floorMod_finite, if_neg hshort, toRat_unsigned, flooredRemainder_finite, hexact]

/-- Nothing is left of whole turns, and it has no sign. -/
theorem floorMod_of_whole {k : ℤ} (hwhole : (finite negative m hm).toRat = k * tau.toRat) :
    floorMod (finite negative m hm) tau = 0 := by
  have hremainder := flooredRemainder_finite negative hm
  rw [flooredRemainder_eq k le_rfl toRat_tau_pos (by rw [hwhole, add_zero]), eq_comm,
    div_eq_zero_iff, or_iff_left unitsPerOne_pos_rat.ne', Nat.cast_eq_zero] at hremainder
  have hround : roundUnits (unitsBeyond negative m) 1 = 0 := by
    rw [hremainder, roundUnits_of_representable representable_zero]
  rw [floorMod_finite]
  simp only [hround, zero_eq_signedZero]
  split <;> rfl

end Units

/-- What a number becomes when whole turns are discarded. -/
structure Reduces (v r : Double) : Prop where
  finite : r.isFinite = true
  unsigned : r ≠ signedZero true
  nonneg : 0 ≤ r.toRat
  lt : r.toRat < tau.toRat
  exact : 0 ≤ v.toRat → r.toRat = flooredRemainder v.toRat tau.toRat
  rounded : v.toRat < 0 → r.toRat =
    if roundBinary (flooredRemainder v.toRat tau.toRat) = tau.toRat then 0
    else roundBinary (flooredRemainder v.toRat tau.toRat)
  whole : (∃ k : ℤ, v.toRat = k * tau.toRat) → r = 0

/-- **Every finite number lands in the first turn.** A number that is not negative is not rounded on
the way, and a negative one is rounded once; it becomes zero if that makes a full turn of it. -/
theorem floorMod_reduces {v : Double} (hv : v.isFinite = true) : Reduces v (floorMod v tau) := by
  cases v with
  | nan | infinite => cases hv
  | finite negative m hm =>
      obtain ⟨units, h, hfloor, hlt, hvalue⟩ := exists_floorMod negative hm
      refine ⟨?_, ?_, ?_, ?_, floorMod_of_nonneg negative hm, fun _ => ?_, ?_⟩
      · rw [hfloor]
        rfl
      · rw [hfloor]
        rintro ⟨⟩
      · rw [hfloor, toRat_unsigned]
        exact div_nonneg (Nat.cast_nonneg units) unitsPerOne_pos_rat.le
      · rw [hfloor, toRat_unsigned, toRat_tau, div_lt_div_iff_of_pos_right unitsPerOne_pos_rat,
          Nat.cast_lt]
        exact hlt
      · rw [hfloor, toRat_unsigned, hvalue]
      · rintro ⟨k, hwhole⟩
        exact floorMod_of_whole negative hm hwhole

/-- The greatest number below zero. -/
def barelyNegative : Double := .ofUnits true 1

/-- What it lacks to a turn is rounded to the whole turn. -/
theorem barelyNegative_reduces : barelyNegative.isFinite = true
    ∧ Reduces barelyNegative (floorMod barelyNegative tau)
    ∧ barelyNegative.same 0 = false ∧ floorMod barelyNegative tau = 0 := by
  have hfinite : barelyNegative.isFinite = true := by decide +kernel
  exact ⟨hfinite, floorMod_reduces hfinite, by decide +kernel, by decide +kernel⟩

end Angle

end AngleSeries
