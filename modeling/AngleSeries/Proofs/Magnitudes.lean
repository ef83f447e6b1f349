import AngleSeries.Proofs.ShortestDigits
import AngleSeries.Rotation.Angle
import AngleSeries.Rotation.Oracle

/-!
# Magnitudes

A result is finite as soon as its exact value is bounded by a finite number, because rounding does
not leave that bound. So finiteness is a matter of budgets: each operation has one that depends on
the budgets of its operands alone, in units. A remainder keeps that of its divisor, a sine and the
probabilities made from it that of one. Only a product by a scale has no budget of its own.
-/

namespace AngleSeries

/-! ### Rounding within a bound -/

theorem roundHalfEven_le {n d bound : Nat} (hd : 0 < d) (hle : n ≤ bound * d) :
    roundHalfEven n d ≤ bound := by
  have hfloor : n / d ≤ bound := Nat.div_le_of_le_mul (by rwa [Nat.mul_comm])
  unfold roundHalfEven
  rcases hfloor.lt_or_eq with hlt | heq
  · dsimp only
    split_ifs <;> omega
  · -- The quotient is the bound itself, so nothing is left to be rounded.
    have hexact : n % d = 0 := by
      have hsplit := Nat.div_add_mod n d
      rw [heq, Nat.mul_comm] at hsplit
      omega
    simp only [hexact, Nat.mul_zero, hd, if_true, heq, le_refl]

section Rounding

variable {n d bound : Nat}

theorem roundUnits_le (hbound : Representable bound) (hd : 0 < d) (hle : n ≤ bound * d) :
    Double.roundUnits n d ≤ bound := by
  have hfloor : n / d ≤ bound := Nat.div_le_of_le_mul (by rwa [Nat.mul_comm])
  have hlog : (n / d).log2 ≤ bound.log2 := by
    rw [Nat.log2_eq_log_two, Nat.log2_eq_log_two]
    exact Nat.log_mono_right hfloor
  have hdvd : 2 ^ ((n / d).log2 - 52) ∣ bound :=
    (pow_dvd_pow 2 (by omega)).trans (Double.dvd_of_representable hbound)
  obtain ⟨count, hcount⟩ := hdvd
  rw [Double.roundUnits]
  set step := 2 ^ ((n / d).log2 - 52) with hstep
  have hround : roundHalfEven n (d * step) ≤ count := by
    refine roundHalfEven_le (Nat.mul_pos hd (Nat.two_pow_pos _)) ?_
    calc n ≤ bound * d := hle
      _ = count * (d * step) := by rw [hcount]; ring
  calc roundHalfEven n (d * step) * step ≤ count * step := Nat.mul_le_mul_right step hround
    _ = bound := by rw [hcount, Nat.mul_comm]

/-- What is rounded has at most fifty-three binary digits, so only the range is in question. -/
theorem representable_roundUnits (hd : 0 < d) (hlt : Double.roundUnits n d < unitsLimit) :
    Representable (Double.roundUnits n d) := by
  refine ⟨?_, hlt⟩
  rw [Double.roundUnits]
  refine scaled_mod_eq_zero (roundHalfEven_le (Nat.mul_pos hd (Nat.two_pow_pos _)) ?_) _
  have hquotient : n / d + 1 ≤ 2 ^ 53 * Double.stepOf (n / d) := Double.lt_pow_mul_stepOf (n / d)
  calc n ≤ d * (n / d + 1) := (Nat.lt_mul_div_succ n hd).le
    _ ≤ d * (2 ^ 53 * Double.stepOf (n / d)) := Nat.mul_le_mul_left d hquotient
    _ = 2 ^ 53 * (d * 2 ^ ((n / d).log2 - 52)) := by rw [Double.stepOf]; ring

/-- The remainder of numbers is a number: it stands on the finer of their grids. -/
theorem representable_mod (hn : Representable n) (hd : Representable d) (hpos : 0 < d) :
    Representable (n % d) := by
  have hlt : n % d < d := Nat.mod_lt n hpos
  by_cases hsmall : n < d
  · rwa [Nat.mod_eq_of_lt hsmall]
  refine ⟨?_, hlt.trans hd.2⟩
  have hlog : d.log2 ≤ n.log2 := by
    rw [Nat.log2_eq_log_two, Nat.log2_eq_log_two]
    exact Nat.log_mono_right (not_lt.mp hsmall)
  have hdvdD : Double.stepOf d ∣ d := Double.dvd_of_representable hd
  have hdvdN : Double.stepOf d ∣ n :=
    (pow_dvd_pow 2 (by omega)).trans (Double.dvd_of_representable hn)
  obtain ⟨count, hcount⟩ := (Nat.dvd_mod_iff hdvdD).mpr hdvdN
  have hcountLt : count < 2 ^ 53 := by
    have hbound : Double.stepOf d * count < Double.stepOf d * 2 ^ 53 := by
      rw [← hcount, Nat.mul_comm _ (2 ^ 53)]
      exact hlt.trans (Double.lt_pow_mul_stepOf d)
    exact Nat.lt_of_mul_lt_mul_left hbound
  rw [hcount, Nat.mul_comm]
  exact scaled_mod_eq_zero hcountLt.le _

end Rounding

namespace Double

/-! ### Budgets -/

/-- A finite number of at most `bound` units in magnitude. -/
def Within (bound : Nat) (x : Double) : Prop :=
  ∃ negative units h, x = .finite negative units h ∧ units ≤ bound

section Budgets

variable {x y : Double} {a b bound n d : Nat}

theorem Within.isFinite (hx : x.Within bound) : x.isFinite = true := by
  obtain ⟨negative, units, h, rfl, -⟩ := hx
  rfl

theorem Within.mono (hx : x.Within a) (hle : a ≤ bound) : x.Within bound := by
  obtain ⟨negative, units, h, rfl, hunits⟩ := hx
  exact ⟨negative, units, h, rfl, hunits.trans hle⟩

theorem within_ofUnits (negative : Bool) (hn : Representable n) (hle : n ≤ bound) :
    (ofUnits negative n).Within bound :=
  ⟨negative, n, hn, by rw [ofUnits, dif_pos hn], hle⟩

theorem within_signedZero (negative : Bool) : (signedZero negative).Within bound :=
  ⟨negative, 0, representable_zero, rfl, Nat.zero_le bound⟩

variable (hbound : Representable bound)

include hbound

theorem within_ofQuotient (negative : Bool) (hd : 0 < d) (hle : n ≤ bound * d) :
    (ofQuotient negative n d).Within bound := by
  have hround := roundUnits_le hbound hd hle
  exact within_ofUnits negative (representable_roundUnits hd (hround.trans_lt hbound.2)) hround

theorem within_ofSum (negative : Bool) {sum : Int} (hle : sum.natAbs ≤ bound) :
    (ofSum negative sum).Within bound := by
  unfold ofSum
  split
  · exact within_signedZero negative
  · exact within_ofQuotient hbound _ Nat.one_pos (by rwa [Nat.mul_one])

theorem Within.add (hx : x.Within a) (hy : y.Within b) (hle : a + b ≤ bound) :
    (x + y).Within bound := by
  obtain ⟨p, m, hm, rfl, hma⟩ := hx
  obtain ⟨q, n, hn, rfl, hnb⟩ := hy
  refine within_ofSum hbound (p && q) ?_
  cases p <;> cases q <;> simp only [Bool.false_eq_true, if_true, if_false] <;> omega

theorem Within.sub (hx : x.Within a) (hy : y.Within b) (hle : a + b ≤ bound) :
    (x - y).Within bound := by
  obtain ⟨q, n, hn, rfl, hnb⟩ := hy
  exact hx.add hbound ⟨!q, n, hn, rfl, hnb⟩ hle

theorem Within.mul (hx : x.Within a) (hy : y.Within b) (hle : a * b ≤ bound * unitsPerOne) :
    (x * y).Within bound := by
  obtain ⟨p, m, hm, rfl, hma⟩ := hx
  obtain ⟨q, n, hn, rfl, hnb⟩ := hy
  exact within_ofQuotient hbound (p ^^ q) unitsPerOne_pos ((Nat.mul_le_mul hma hnb).trans hle)

end Budgets

theorem representable_one : Representable unitsPerOne := by
  simpa using representable_whole (m := 1) (by decide)

theorem div_finite {p q : Bool} {m n : Nat} (hm : Representable m) (hn : Representable n)
    (hne : n ≠ 0) :
    (Double.finite p m hm / .finite q n hn) = ofQuotient (p ^^ q) (m * unitsPerOne) n :=
  if_neg hne

theorem rem_finite {p q : Bool} {m n : Nat} (hm : Representable m) (hn : Representable n)
    (hne : n ≠ 0) : (Double.finite p m hm % .finite q n hn) = ofUnits p (m % n) :=
  if_neg hne

section Zero

variable {units : Nat} (negative : Bool) (h : Representable units)

theorem same_zero : (finite negative units h).same 0 = decide (units = 0) := by
  rw [zero_eq_signedZero]
  cases negative <;> simp [signedZero, same]

theorem lt_zero : (finite negative units h).lt 0 = (negative && decide (units ≠ 0)) := by
  rw [zero_eq_signedZero]
  cases negative <;> simp [signedZero, lt, Nat.pos_iff_ne_zero]

end Zero

theorem isFinite_half {x : Double} (hx : x.isFinite = true) : (x / 2).isFinite = true := by
  cases x with
  | nan | infinite => cases hx
  | finite negative units h =>
      have htwo : (2 : Double)
          = .finite false (2 * unitsPerOne) (representable_whole (by decide)) := by
        rw [ofNat_eq_ofInt, ofInt_eq_finite (by decide)]
        simp
      have hpos : 0 < 2 * unitsPerOne := Nat.mul_pos Nat.two_pos unitsPerOne_pos
      rw [htwo, div_finite h _ hpos.ne']
      refine (within_ofQuotient h _ hpos (Nat.mul_le_mul_left units ?_)).isFinite
      exact Nat.le_mul_of_pos_left unitsPerOne Nat.two_pos

/-- A sine is at most one in magnitude. -/
theorem within_sine {x : Double} (hx : x.isFinite = true) : x.sine.Within unitsPerOne := by
  rw [sine, if_pos hx]
  split
  case h_1 negative units h _ =>
    split
    case isTrue hle => exact ⟨negative, units, h, rfl, hle⟩
    case isFalse => exact within_ofUnits negative representable_one le_rfl
  case h_2 => exact within_signedZero false

end Double

/-! ### Probabilities -/

open Double

theorem within_rotationProbability {angle : Double} (hangle : angle.isFinite = true) :
    (rotationProbability angle).Within unitsPerOne :=
  (within_sine (isFinite_half hangle)).mul representable_one (within_sine (isFinite_half hangle))
    le_rfl

theorem Generator.tally_le (next : Nat → Nat) (test : Nat → Bool) (count state passed : Nat) :
    tally next test count state passed ≤ passed + count := by
  induction count generalizing state passed with
  | zero => exact le_rfl
  | succ count ih =>
      rw [tally]
      refine (ih _ _).trans ?_
      split <;> omega

theorem Generator.count_le (seed : UInt32) (shots : Nat) (probability : Double) :
    count seed shots probability ≤ shots := by
  have htally := tally_le advance
    (fun counter => (draw counter).toNat < wordsBelow probability) shots seed.toNat 0
  rwa [Nat.zero_add] at htally

/-- An estimate is a share of the shots. -/
theorem Oracle.within_estimate (seed : UInt32) {shots : Nat} (hpos : 0 < shots)
    (hmax : shots ≤ 2 ^ 53) (probability : Double) :
    (estimate seed shots probability).Within unitsPerOne := by
  have hcount := Generator.count_le seed shots probability
  have hshots : 0 < shots * unitsPerOne := Nat.mul_pos hpos unitsPerOne_pos
  rw [estimate, ofNat_eq_finite (hcount.trans hmax), ofNat_eq_finite hmax, div_finite _ _ hshots.ne']
  refine within_ofQuotient representable_one _ hshots ?_
  calc Generator.count seed shots probability * unitsPerOne * unitsPerOne
      ≤ shots * unitsPerOne * unitsPerOne :=
        Nat.mul_le_mul_right _ (Nat.mul_le_mul_right _ hcount)
    _ = unitsPerOne * (shots * unitsPerOne) := Nat.mul_comm _ _

/-- What the expectation is made of stays between minus two and three. -/
theorem isFinite_expectation {share : Double} (hshare : share.Within unitsPerOne) :
    (1 - share - share).isFinite = true := by
  have hone : (1 : Double).Within unitsPerOne := by
    rw [ofNat_eq_ofInt, ofInt_eq_finite (by decide)]
    exact ⟨_, _, _, rfl, by simp⟩
  have hfirst : (1 - share).Within (2 * unitsPerOne) :=
    hone.sub (representable_whole (by decide)) hshare (by omega)
  have hsecond : (1 - share - share).Within (3 * unitsPerOne) :=
    hfirst.sub (representable_whole (by decide)) hshare (by omega)
  exact hsecond.isFinite

/-! ### Angles -/

namespace Angle

theorem representable_turn : Representable turnUnits := by decide +kernel

theorem tau_eq : tau = .finite false turnUnits representable_turn := by
  rw [tau, ofUnits, dif_pos representable_turn]

theorem turnUnits_pos : 0 < turnUnits := by decide +kernel

/-- The units of a number beyond the last whole turn below it. -/
def unitsBeyond (negative : Bool) (m : Nat) : Nat :=
  if negative = true ∧ m % turnUnits ≠ 0 then turnUnits - m % turnUnits else m % turnUnits

section Beyond

variable (negative : Bool) {m : Nat}

theorem unitsBeyond_lt (m : Nat) : unitsBeyond negative m < turnUnits := by
  have hlt : m % turnUnits < turnUnits := Nat.mod_lt m turnUnits_pos
  rw [unitsBeyond]
  split <;> omega

/-- Rounding does not go beyond the next turn. -/
theorem roundUnits_beyond_le : roundUnits (unitsBeyond negative m) 1 ≤ turnUnits :=
  roundUnits_le representable_turn Nat.one_pos (by have := unitsBeyond_lt negative m; omega)

theorem representable_beyond : Representable (roundUnits (unitsBeyond negative m) 1) :=
  representable_roundUnits Nat.one_pos
    ((roundUnits_beyond_le negative).trans_lt representable_turn.2)

end Beyond

section Steps

variable {m : Nat} (hm : Representable m)

theorem rem_tau (negative : Bool) : finite negative m hm % tau
    = finite negative (m % turnUnits) (representable_mod hm representable_turn turnUnits_pos) := by
  rw [tau_eq, rem_finite hm _ turnUnits_pos.ne', ofUnits, dif_pos]

theorem lt_zero_tau : tau.lt 0 = false := by
  rw [tau_eq, lt_zero, Bool.false_and]

theorem same_tau : (finite false m hm).same tau = decide (m = turnUnits) := by
  rw [tau_eq]
  simp only [same, Bool.false_eq_true, if_false, Nat.cast_inj]

theorem add_tau (hlt : m < turnUnits) : finite true m hm + tau
    = ofUnits false (roundUnits (turnUnits - m) 1) := by
  have hpos : 0 < -(m : Int) + turnUnits := by omega
  have hdistance : (-(m : Int) + turnUnits).natAbs = turnUnits - m := by omega
  rw [tau_eq]
  change ofSum false (-(m : Int) + turnUnits) = _
  rw [ofSum, if_neg hpos.ne', hdistance, decide_eq_false hpos.not_gt, ofQuotient]

/-- Whole turns are discarded in one rounding, and a full turn that it makes counts as none. -/
theorem floorMod_finite (negative : Bool) : floorMod (finite negative m hm) tau
    = if roundUnits (unitsBeyond negative m) 1 = turnUnits then 0
      else finite false (roundUnits (unitsBeyond negative m) 1) (representable_beyond negative) := by
  have hlt : m % turnUnits < turnUnits := Nat.mod_lt m turnUnits_pos
  have hleft := representable_mod hm representable_turn turnUnits_pos
  have hrep := representable_beyond negative (m := m)
  unfold floorMod
  simp only [rem_tau, same_zero, lt_zero, lt_zero_tau]
  by_cases hwraps : negative = true ∧ m % turnUnits ≠ 0
  · obtain ⟨rfl, hne⟩ := hwraps
    have hbeyond : unitsBeyond true m = turnUnits - m % turnUnits := if_pos ⟨rfl, hne⟩
    rw [hbeyond] at hrep
    simp [hne, add_tau _ hlt, hbeyond, ofUnits, dif_pos hrep, same_tau]
  · have hbeyond : unitsBeyond negative m = m % turnUnits := if_neg hwraps
    simp only [hbeyond, roundUnits_of_representable hleft, hlt.ne, if_false]
    by_cases hzero : m % turnUnits = 0
    · simp [hzero, zero_eq_signedZero, signedZero]
    · have hpositive : negative = false := by simpa [hzero] using hwraps
      simp [hzero, hpositive]

end Steps

/-- What is left of a value without whole turns is at most a turn. -/
theorem within_floorMod {x : Double} (hx : x.isFinite = true) :
    (floorMod x tau).Within turnUnits := by
  cases x with
  | nan | infinite => cases hx
  | finite negative m hm =>
      rw [floorMod_finite]
      split
      · rw [zero_eq_signedZero]
        exact within_signedZero false
      · exact ⟨false, _, representable_beyond negative, rfl, roundUnits_beyond_le negative⟩

/-- **No overflow for scales up to `2 ^ 1021`.** -/
theorem isFinite_of_scale {value : Decimal} {scale angle : Double}
    (hscale : scale.Within (2 ^ 1021 * unitsPerOne))
    (hangle : Angle.ofDecimal value (.number scale) = .ok angle) : angle.isFinite = true := by
  have hread : Angle.readScale (.number scale) = .ok scale := by
    rw [Angle.readScale, if_pos hscale.isFinite]
  simp only [Angle.ofDecimal, hread] at hangle
  split at hangle
  case isTrue => cases hangle
  case isFalse hfinite =>
    cases hangle
    have hvalue : value.toDouble.isFinite = true := by simpa using hfinite
    have hbound : Representable (2 ^ 1021 * turnUnits) := by decide +kernel
    exact (hscale.mul hbound (within_floorMod hvalue) (Nat.mul_right_comm ..).le).isFinite

end Angle

end AngleSeries
