import AngleSeries.Double.Reading
import AngleSeries.Double.Shortest
import AngleSeries.Proofs.SignificantDigits
import AngleSeries.Proofs.WholeDoubles

/-!
# Shortest digits read back

A decimal whose value lies in the basin of a binary64 number is rounded to that number. Seventeen
digits make the decimal grid fine enough for one of the two neighbours of the number to lie in its
basin, so the search for the shortest digits always ends there, and what is printed is read back.
-/

namespace AngleSeries

open Numeral

/-- A count within a half of the quotient is the rounded quotient, if a half goes to an even one. -/
theorem roundHalfEven_eq {n d count : Nat} (hd : 0 < d) (hlow : 2 * count * d ≤ 2 * n + d)
    (hhigh : 2 * n ≤ 2 * count * d + d)
    (htie : 2 * count * d = 2 * n + d ∨ 2 * n = 2 * count * d + d → count % 2 = 0) :
    roundHalfEven n d = count := by
  have hsplit : d * (n / d) + n % d = n := Nat.div_add_mod n d
  have hmod : n % d < d := Nat.mod_lt n hd
  set q := n / d with hq
  set r := n % d with hr
  -- The count is the floor or the number after it.
  have hcases : count = q ∨ count = q + 1 := by
    have hupper : count < q + 2 := by
      by_contra hge
      have hmul : (q + 2) * d ≤ count * d := Nat.mul_le_mul_right d (by omega)
      nlinarith
    have hlower : q ≤ count := by
      by_contra hlt
      have hmul : (count + 1) * d ≤ q * d := Nat.mul_le_mul_right d (by omega)
      nlinarith
    omega
  have hround : roundHalfEven n d
      = if 2 * r < d then q else if d < 2 * r then q + 1 else q + q % 2 := rfl
  rw [hround]
  have hcomm : d * q = q * d := Nat.mul_comm d q
  rcases hcases with hcount | hcount
  · rw [hcount, mul_assoc] at hhigh htie
    split_ifs with hbelow habove
    · exact hcount.symm
    · omega
    · have := htie (.inr (by omega))
      omega
  · rw [hcount, mul_assoc, add_mul, one_mul] at hlow htie
    split_ifs with hbelow habove
    · omega
    · exact hcount.symm
    · have := htie (.inl (by omega))
      omega

namespace Double

/-- The distance of neighbouring numbers around a number of units. -/
def stepOf (units : Nat) : Nat :=
  2 ^ (units.log2 - 52)

section Steps

variable {units : Nat}

theorem stepOf_pos : 0 < stepOf units :=
  Nat.two_pow_pos _

theorem dvd_of_representable (h : Representable units) : stepOf units ∣ units :=
  Nat.dvd_of_mod_eq_zero h.1

theorem lt_pow_mul_stepOf (units : Nat) : units < 2 ^ 53 * stepOf units := by
  have hlt : units < 2 ^ (units.log2 + 1) := Nat.lt_log2_self
  refine hlt.trans_le ?_
  rw [stepOf, ← pow_add]
  exact Nat.pow_le_pow_right (by decide) (by omega)

theorem stepOf_dvd_pow {exponent : Nat} (hle : units.log2 - 52 ≤ exponent) :
    stepOf units ∣ 2 ^ exponent :=
  pow_dvd_pow 2 hle

/-- Numbers on the grid of a step lie at least a step apart. -/
theorem add_le_of_dvd {step a b : Nat} (ha : step ∣ a) (hb : step ∣ b) (hlt : a < b) :
    a + step ≤ b :=
  Nat.le_of_lt_add_of_dvd (by omega) (dvd_add ha dvd_rfl) hb

/-- The next number does not leave the power of two above. -/
theorem add_stepOf_le (h : Representable units) : units + stepOf units ≤ 2 ^ (units.log2 + 1) :=
  add_le_of_dvd (dvd_of_representable h) (stepOf_dvd_pow (by omega)) Nat.lt_log2_self

/-- A number above a power of two is so by at least one step. -/
theorem pow_add_stepOf_le (h : Representable units) (hlt : 2 ^ units.log2 < units) :
    2 ^ units.log2 + stepOf units ≤ units :=
  add_le_of_dvd (stepOf_dvd_pow (by omega)) (dvd_of_representable h) hlt

end Steps

/-! ### Rounding to a number from its basin -/

/-- Whether the step below a number is half as wide as the one above. -/
def isNarrow (units : Nat) : Bool :=
  units == 2 ^ units.log2 && 1 < stepOf units

/-- Below a narrow number the step is halved, so it had not yet the width of a unit. -/
theorem isNarrow_iff {units : Nat} :
    isNarrow units = true ↔ units = 2 ^ units.log2 ∧ 53 ≤ units.log2 := by
  rw [isNarrow, Bool.and_eq_true, decide_eq_true_eq, beq_iff_eq, stepOf, Nat.one_lt_two_pow_iff]
  refine and_congr_right fun _ => ?_
  omega

theorem stepOf_of_narrow {units : Nat} (hnarrow : isNarrow units = true) :
    units = 2 ^ 52 * stepOf units := by
  obtain ⟨hunits, hlog⟩ := isNarrow_iff.mp hnarrow
  rw [stepOf, ← pow_add, Nat.add_sub_of_le (by omega)]
  exact hunits

theorem basin_low (units : Nat) :
    (basin units).low = 4 * units - (if isNarrow units then stepOf units else 2 * stepOf units) :=
  rfl

theorem basin_value (units : Nat) : (basin units).value = 4 * units := rfl

theorem basin_high (units : Nat) : (basin units).high = 4 * units + 2 * stepOf units := rfl

theorem basin_closed (units : Nat) :
    (basin units).closed = true ↔ units / stepOf units % 2 = 0 :=
  beq_iff_eq

theorem Basin.holds_bounds {basin : Basin} {n d : Nat} (hholds : basin.holds n d = true) :
    basin.low * d ≤ n ∧ n ≤ basin.high * d
      ∧ (n = basin.low * d ∨ n = basin.high * d → 0 < d → basin.closed = true) := by
  unfold Basin.holds at hholds
  split at hholds
  case isTrue hclosed =>
    rw [Bool.and_eq_true, decide_eq_true_eq, decide_eq_true_eq] at hholds
    exact ⟨hholds.1, hholds.2, fun _ _ => hclosed⟩
  case isFalse hopen =>
    rw [Bool.and_eq_true, decide_eq_true_eq, decide_eq_true_eq] at hholds
    exact ⟨hholds.1.le, hholds.2.le, fun hend _ => by omega⟩

theorem stepOf_le {units : Nat} (hpos : 0 < units) : stepOf units ≤ units :=
  (Nat.pow_le_pow_right (by decide) (by omega)).trans (Nat.log2_self_le hpos.ne')

theorem log2_div_lt {n d k : Nat} (hd : 0 < d) (hk : 0 < k) (hlt : n < 2 ^ k * d) :
    (n / d).log2 < k := by
  by_cases hzero : n / d = 0
  · rwa [hzero, Nat.log2_zero]
  · exact (Nat.log2_lt hzero).mpr ((Nat.div_lt_iff_lt_mul hd).mpr hlt)

theorem le_log2_div {n d k : Nat} (hd : 0 < d) (hle : 2 ^ k * d ≤ n) : k ≤ (n / d).log2 := by
  have hdiv : 2 ^ k ≤ n / d := (Nat.le_div_iff_mul_le hd).mpr hle
  have hpow : 0 < 2 ^ k := Nat.two_pow_pos k
  exact (Nat.le_log2 (by omega)).mpr hdiv

section Basins

variable {units n d : Nat} (hpos : 0 < units) (hd : 0 < d)
  (hholds : (basin units).holds (4 * n) d = true)

include hpos hd hholds

/-- What it means for a quotient to lie in the basin, without its denominator. -/
theorem bounds_of_holds :
    2 * n ≤ 2 * (units * d) + stepOf units * d ∧ 2 * (units * d) ≤ 2 * n + stepOf units * d
      ∧ (2 * n = 2 * (units * d) + stepOf units * d ∨ 2 * (units * d) = 2 * n + stepOf units * d →
        units / stepOf units % 2 = 0)
      ∧ (isNarrow units = true → 4 * (units * d) ≤ 4 * n + stepOf units * d) := by
  obtain ⟨hlow, hhigh, hends⟩ := Basin.holds_bounds hholds
  have hle : stepOf units * d ≤ units * d := Nat.mul_le_mul_right d (stepOf_le hpos)
  have hstep : 0 < stepOf units * d := Nat.mul_pos stepOf_pos hd
  rw [basin_closed] at hends
  rw [basin_high, add_mul, mul_assoc, mul_assoc] at hhigh hends
  rw [basin_low, Nat.sub_mul, mul_assoc] at hlow hends
  cases hnarrow : isNarrow units
  · rw [hnarrow] at hlow hends
    simp only [Bool.false_eq_true, if_false, mul_assoc] at hlow hends
    refine ⟨by omega, by omega, fun htie => hends (by omega) hd, fun hcontra => by cases hcontra⟩
  · rw [hnarrow] at hlow hends
    simp only [if_true] at hlow hends
    refine ⟨by omega, by omega, fun htie => hends (by omega) hd, fun _ => by omega⟩

/-- On its own grid the number is the rounded quotient. -/
theorem roundHalfEven_stepOf (h : Representable units) :
    roundHalfEven n (d * stepOf units) * stepOf units = units := by
  obtain ⟨hhigh, hlow, htie, -⟩ := bounds_of_holds hpos hd hholds
  have hcount : units / stepOf units * stepOf units = units :=
    Nat.div_mul_cancel (dvd_of_representable h)
  have hscaled : 2 * (units / stepOf units) * (d * stepOf units) = 2 * (units * d) := by
    calc _ = 2 * (units / stepOf units * stepOf units * d) := by ring
      _ = 2 * (units * d) := by rw [hcount]
  have hstep : d * stepOf units = stepOf units * d := Nat.mul_comm _ _
  have hround : roundHalfEven n (d * stepOf units) = units / stepOf units :=
    roundHalfEven_eq (Nat.mul_pos hd stepOf_pos) (by omega) (by omega)
      fun hends => htie (by omega)
  rw [hround, hcount]

/-- The quotient lies in the binade of the number, unless the number is the least of its binade. -/
theorem log_of_holds (h : Representable units) :
    (n / d).log2 - 52 = units.log2 - 52
      ∨ isNarrow units = true ∧ (n / d).log2 + 1 = units.log2 ∧ n < units * d := by
  obtain ⟨hhigh, hlow, -, hnarrow⟩ := bounds_of_holds hpos hd hholds
  have hstep : 0 < stepOf units * d := Nat.mul_pos stepOf_pos hd
  have hupper : (n / d).log2 < units.log2 + 1 := by
    have hbinade : units * d + stepOf units * d ≤ 2 ^ (units.log2 + 1) * d := by
      rw [← add_mul]
      exact Nat.mul_le_mul_right d (add_stepOf_le h)
    exact log2_div_lt hd (Nat.succ_pos _) (by omega)
  by_cases hsame : 2 ^ units.log2 * d ≤ n
  · have := le_log2_div hd hsame
    omega
  -- The quotient lies below the binade, so the number is at its lower end.
  have hunits : units = 2 ^ units.log2 := by
    by_contra hne
    have hlt : 2 ^ units.log2 < units := lt_of_le_of_ne (Nat.log2_self_le hpos.ne') (Ne.symm hne)
    have hgap := Nat.mul_le_mul_right d (pow_add_stepOf_le h hlt)
    rw [add_mul] at hgap
    omega
  by_cases hlog : 53 ≤ units.log2
  · right
    have hends : isNarrow units = true := isNarrow_iff.mpr ⟨hunits, hlog⟩
    have hquarter := hnarrow hends
    refine ⟨hends, ?_, by rw [← hunits] at hsame; omega⟩
    have hdouble : units * d = 2 * (2 ^ (units.log2 - 1) * d) := by
      rw [← mul_assoc, ← pow_succ', Nat.sub_add_cancel (by omega), ← hunits]
    have hle : stepOf units * d ≤ units * d := Nat.mul_le_mul_right d (stepOf_le hpos)
    have hbelow : units.log2 - 1 ≤ (n / d).log2 := le_log2_div hd (by omega)
    have habove : (n / d).log2 < units.log2 := log2_div_lt hd (by omega) (by omega)
    omega
  · omega

/-- **Rounding from the basin.** A quotient in the basin of a number is rounded to it. -/
theorem roundUnits_of_holds (h : Representable units) : roundUnits n d = units := by
  have hround : roundUnits n d
      = roundHalfEven n (d * 2 ^ ((n / d).log2 - 52)) * 2 ^ ((n / d).log2 - 52) := rfl
  rw [hround]
  rcases log_of_holds hpos hd hholds h with hsame | ⟨hnarrow, hlog, hlt⟩
  · rw [hsame]
    exact roundHalfEven_stepOf hpos hd hholds h
  · obtain ⟨-, -, -, hbelow⟩ := bounds_of_holds hpos hd hholds
    set half := 2 ^ ((n / d).log2 - 52) with hhalf
    -- Below the number the grid is twice as fine, and the number has an even place on it.
    have hstep : stepOf units = 2 * half := by
      have hwide : 53 ≤ units.log2 := (isNarrow_iff.mp hnarrow).2
      rw [stepOf, hhalf, ← pow_succ']
      congr 1
      omega
    have hhalfPos : 0 < half := Nat.two_pow_pos _
    have hcount : 2 * (units / stepOf units) * half = units := by
      calc _ = units / stepOf units * stepOf units := by rw [hstep]; ring
        _ = units := Nat.div_mul_cancel (dvd_of_representable h)
    have hscaled : 2 * (2 * (units / stepOf units)) * (d * half) = 2 * (units * d) := by
      calc _ = 2 * (2 * (units / stepOf units) * half * d) := by ring
        _ = 2 * (units * d) := by rw [hcount]
    have hdouble : stepOf units * d = 2 * (d * half) := by
      rw [hstep]
      ring
    have hbound := hbelow hnarrow
    have heven : roundHalfEven n (d * half) = 2 * (units / stepOf units) :=
      roundHalfEven_eq (Nat.mul_pos hd hhalfPos) (by omega) (by omega) fun _ => by omega
    rw [heven, hcount]

end Basins

/-! ### The basin among the rational numbers -/

/-- Membership of a rational number of quarter units. -/
def Basin.Contains (basin : Basin) (q : ℚ) : Prop :=
  if basin.closed then basin.low ≤ q ∧ q ≤ basin.high else basin.low < q ∧ q < basin.high

theorem Basin.holds_iff (basin : Basin) {n d : Nat} (hd : 0 < d) :
    basin.holds n d = true ↔ basin.Contains ((n : ℚ) / d) := by
  have hdq : (0 : ℚ) < d := by exact_mod_cast hd
  unfold Basin.holds Basin.Contains
  split
  · rw [Bool.and_eq_true, decide_eq_true_eq, decide_eq_true_eq, le_div_iff₀ hdq, div_le_iff₀ hdq]
    norm_cast
  · rw [Bool.and_eq_true, decide_eq_true_eq, decide_eq_true_eq, lt_div_iff₀ hdq, div_lt_iff₀ hdq]
    norm_cast

theorem Basin.Contains.bounds {basin : Basin} {q : ℚ} (hq : basin.Contains q) :
    (basin.low : ℚ) ≤ q ∧ q ≤ basin.high := by
  unfold Basin.Contains at hq
  split at hq
  · exact hq
  · exact ⟨hq.1.le, hq.2.le⟩

/-- Quarter units of a decimal. -/
def quarters (coefficient : Nat) (exponent : Int) : ℚ :=
  coefficient * 10 ^ exponent * (4 * unitsPerOne)

/-! ### The two neighbours on a decimal grid -/

def gridOf (exponent : Int) : Nat :=
  4 * unitsPerOne * 10 ^ exponent.toNat

def scaleOf (exponent : Int) : Nat :=
  10 ^ (-exponent).toNat

/-- The greatest multiple of `10 ^ exponent` up to the value. -/
def Basin.below (basin : Basin) (exponent : Int) : Nat :=
  basin.value * scaleOf exponent / gridOf exponent

section Grids

variable (exponent : Int)

theorem gridOf_pos : 0 < gridOf exponent :=
  Nat.mul_pos (Nat.mul_pos (by decide) unitsPerOne_pos) (Nat.pow_pos (by decide))

theorem scaleOf_pos : 0 < scaleOf exponent :=
  Nat.pow_pos (by decide)

theorem quarters_eq_div (coefficient : Nat) :
    quarters coefficient exponent
      = ((coefficient * gridOf exponent : Nat) : ℚ) / (scaleOf exponent : Nat) := by
  have hscale : (scaleOf exponent : ℚ) ≠ 0 := by exact_mod_cast (scaleOf_pos exponent).ne'
  rw [quarters, eq_div_iff hscale, scaleOf, gridOf]
  push_cast
  rw [pow_toNat_eq exponent]
  ring

variable (basin : Basin)

theorem Basin.nearest?_eq : basin.nearest? exponent =
    if basin.holds (basin.below exponent * gridOf exponent) (scaleOf exponent)
        && basin.holds ((basin.below exponent + 1) * gridOf exponent) (scaleOf exponent) then
      if 2 * basin.value * scaleOf exponent < (2 * basin.below exponent + 1) * gridOf exponent then
        some (basin.below exponent)
      else if (2 * basin.below exponent + 1) * gridOf exponent < 2 * basin.value * scaleOf exponent
        then some (basin.below exponent + 1)
      else some (basin.below exponent + basin.below exponent % 2)
    else if basin.holds (basin.below exponent * gridOf exponent) (scaleOf exponent) then
      some (basin.below exponent)
    else if basin.holds ((basin.below exponent + 1) * gridOf exponent) (scaleOf exponent) then
      some (basin.below exponent + 1)
    else none :=
  rfl

variable {exponent basin}

/-- What is found is one of the neighbours and lies in the basin. -/
theorem Basin.nearest?_holds {coefficient : Nat}
    (hnearest : basin.nearest? exponent = some coefficient) :
    basin.holds (coefficient * gridOf exponent) (scaleOf exponent) = true := by
  rw [Basin.nearest?_eq] at hnearest
  split_ifs at hnearest with hboth hlow hhigh hbelow habove
  · cases hnearest
    exact (Bool.and_eq_true_iff.mp hboth).1
  · cases hnearest
    exact (Bool.and_eq_true_iff.mp hboth).2
  · cases hnearest
    -- The even neighbour is the one below or the one above.
    rcases Nat.mod_two_eq_zero_or_one (basin.below exponent) with heven | hodd
    · rw [heven]
      exact (Bool.and_eq_true_iff.mp hboth).1
    · rw [hodd]
      exact (Bool.and_eq_true_iff.mp hboth).2
  · cases hnearest
    exact hbelow
  · cases hnearest
    exact habove

/-- If either neighbour lies in the basin, one is found. -/
theorem Basin.nearest?_isSome
    (hholds : basin.holds (basin.below exponent * gridOf exponent) (scaleOf exponent) = true
      ∨ basin.holds ((basin.below exponent + 1) * gridOf exponent) (scaleOf exponent) = true) :
    (basin.nearest? exponent).isSome = true := by
  rw [Basin.nearest?_eq]
  split_ifs with hboth hlow hhigh hbelow habove
  · rfl
  · rfl
  · rfl
  · rfl
  · rfl
  · exact absurd hholds (not_or.mpr ⟨hbelow, habove⟩)

end Grids

theorem Basin.holds_of_lt {basin : Basin} {n d : Nat} (hlow : basin.low * d < n)
    (hhigh : n < basin.high * d) : basin.holds n d = true := by
  unfold Basin.holds
  split
  · rw [Bool.and_eq_true, decide_eq_true_eq, decide_eq_true_eq]
    exact ⟨hlow.le, hhigh.le⟩
  · rw [Bool.and_eq_true, decide_eq_true_eq, decide_eq_true_eq]
    exact ⟨hlow, hhigh⟩

section Neighbours

variable (units : Nat) (exponent : Int)

theorem below_mul_gridOf_le :
    (basin units).below exponent * gridOf exponent ≤ 4 * (units * scaleOf exponent) := by
  rw [Basin.below, basin_value, ← mul_assoc]
  exact Nat.div_mul_le_self _ _

theorem lt_below_succ_mul_gridOf :
    4 * (units * scaleOf exponent) < ((basin units).below exponent + 1) * gridOf exponent := by
  rw [Basin.below, basin_value, ← mul_assoc, mul_comm _ (gridOf exponent)]
  exact Nat.lt_mul_div_succ _ (gridOf_pos exponent)

end Neighbours

/-- A grid step of seventeen digits is shorter than two steps of binary64 numbers, and where the
basin is narrow than one. -/
theorem grid_lt_of_seventeen {units scale grid : Nat} (hscale : 0 < scale)
    (hgrid : 10 ^ 16 * grid ≤ 4 * (units * scale)) :
    grid < 4 * (stepOf units * scale)
      ∧ (isNarrow units = true → grid < 2 * (stepOf units * scale)) := by
  have hstep : 0 < stepOf units * scale := Nat.mul_pos stepOf_pos hscale
  constructor
  · have hproduct : units * scale < 2 ^ 53 * (stepOf units * scale) := by
      rw [← mul_assoc]
      exact Nat.mul_lt_mul_of_pos_right (lt_pow_mul_stepOf units) hscale
    omega
  · intro hnarrow
    have hproduct : units * scale = 2 ^ 52 * (stepOf units * scale) := by
      rw [← mul_assoc, ← stepOf_of_narrow hnarrow]
    omega

/-- **Seventeen digits.** On the grid of the seventeenth digit a neighbour lies in the basin. -/
theorem nearest?_isSome_of_grid {units : Nat} (hpos : 0 < units) {exponent : Int}
    (hgrid : 10 ^ 16 * gridOf exponent ≤ 4 * (units * scaleOf exponent)) :
    ((basin units).nearest? exponent).isSome = true := by
  refine Basin.nearest?_isSome ?_
  have hscale : 0 < scaleOf exponent := scaleOf_pos exponent
  have hfloor := below_mul_gridOf_le units exponent
  have hceil := lt_below_succ_mul_gridOf units exponent
  obtain ⟨hwide, hfine⟩ := grid_lt_of_seventeen hscale hgrid
  generalize (basin units).below exponent = below at hfloor hceil ⊢
  generalize scaleOf exponent = scale at hscale hfloor hceil hwide hfine ⊢
  generalize gridOf exponent = grid at hfloor hceil hwide hfine ⊢
  have hnext : (below + 1) * grid = below * grid + grid := Nat.succ_mul _ _
  have hle : stepOf units * scale ≤ units * scale := Nat.mul_le_mul_right _ (stepOf_le hpos)
  have hhigh : (basin units).high * scale = 4 * (units * scale) + 2 * (stepOf units * scale) := by
    rw [basin_high]
    ring
  cases hnarrow : isNarrow units with
  | true =>
      have hlow : (basin units).low * scale = 4 * (units * scale) - stepOf units * scale := by
        rw [basin_low, hnarrow, if_pos rfl, Nat.sub_mul, mul_assoc]
      have hshort := hfine hnarrow
      exact .inr (Basin.holds_of_lt (by omega) (by omega))
  | false =>
      have hlow : (basin units).low * scale
          = 4 * (units * scale) - 2 * (stepOf units * scale) := by
        rw [basin_low, hnarrow, if_neg Bool.false_ne_true, Nat.sub_mul, mul_assoc, mul_assoc]
      by_cases hreach : (below + 1) * grid < (basin units).high * scale
      · exact .inr (Basin.holds_of_lt (by omega) hreach)
      · exact .inl (Basin.holds_of_lt (by omega) (by omega))

/-! ### The search -/

/-- The search ends on the first grid on which something is found. -/
theorem Basin.search_spec (basin : Basin) (exponent : Int) (more : Nat)
    (hfound : (basin.nearest? (exponent - more)).isSome = true) :
    basin.nearest? (basin.search exponent more).2 = some (basin.search exponent more).1 := by
  induction more generalizing exponent with
  | zero =>
      rw [Int.natCast_zero, sub_zero] at hfound
      obtain ⟨coefficient, hsome⟩ := Option.isSome_iff_exists.mp hfound
      simp only [Basin.search, hsome, Option.getD_some]
  | succ more ih =>
      rw [Basin.search]
      cases hnearest : basin.nearest? exponent with
      | some coefficient => exact hnearest
      | none =>
          refine ih (exponent - 1) ?_
          rw [show exponent - 1 - (more : Int) = exponent - (more + 1 : Nat) by push_cast; ring]
          exact hfound

/-- The grid of the seventeenth digit. -/
theorem grid_le_of_leadingExponent {units : Nat} (hpos : 0 < units) :
    10 ^ 16 * gridOf (leadingExponent units unitsPerOne - 16)
      ≤ 4 * (units * scaleOf (leadingExponent units unitsPerOne - 16)) := by
  have hone : unitsPerOne ≠ 0 := unitsPerOne_pos.ne'
  have hlead := zpow_log_le (div_pos_of_ne_zero hpos.ne' hone)
  rw [← leadingExponent_eq_log hpos.ne' hone] at hlead
  generalize leadingExponent units unitsPerOne = lead at hlead ⊢
  have hgrid : 0 < unitsPerOne * 10 ^ (lead - 16).toNat :=
    Nat.mul_pos unitsPerOne_pos (Nat.pow_pos (by decide))
  have hquotient : (10 : ℚ) ^ 16
      ≤ (units * scaleOf (lead - 16) : ℕ) / (unitsPerOne * 10 ^ (lead - 16).toNat : ℕ) := by
    rw [scaleOf, div_pow_toNat_eq, le_div_iff₀ (by positivity)]
    calc (10 : ℚ) ^ 16 * 10 ^ (lead - 16) = 10 ^ (16 : ℤ) * 10 ^ (lead - 16) := by norm_num
      _ = 10 ^ lead := by rw [← zpow_add₀ (by norm_num), add_sub_cancel]
      _ ≤ units / unitsPerOne := hlead
  have hnat : 10 ^ 16 * (unitsPerOne * 10 ^ (lead - 16).toNat) ≤ units * scaleOf (lead - 16) := by
    rw [le_div_iff₀ (by exact_mod_cast hgrid)] at hquotient
    exact_mod_cast hquotient
  calc 10 ^ 16 * gridOf (lead - 16) = 4 * (10 ^ 16 * (unitsPerOne * 10 ^ (lead - 16).toNat)) := by
        rw [gridOf]
        ring
    _ ≤ 4 * (units * scaleOf (lead - 16)) := Nat.mul_le_mul_left 4 hnat

/-- The quarter units do not change when zeros move into the exponent. -/
theorem quarters_stripZeros {coefficient : Nat} (hne : coefficient ≠ 0) (exponent : Int) :
    quarters (stripZeros coefficient exponent).1 (stripZeros coefficient exponent).2
      = quarters coefficient exponent := by
  obtain ⟨k, hvalue, hexponent, -⟩ := stripZeros_spec hne exponent
  have hcast : (coefficient : ℚ) = (stripZeros coefficient exponent).1 * 10 ^ k := by
    exact_mod_cast hvalue
  rw [quarters, quarters, hexponent, hcast, zpow_add₀ (by norm_num), zpow_natCast]
  ring

/-- Half a unit at least belongs to what lies in a basin. -/
theorem two_le_low {units : Nat} (hpos : 0 < units) : 2 ≤ (basin units).low := by
  have hle := stepOf_le hpos
  rw [basin_low]
  split <;> omega

theorem ne_zero_of_contains {units coefficient : Nat} (hpos : 0 < units) {exponent : Int}
    (hcontains : (basin units).Contains (quarters coefficient exponent)) : coefficient ≠ 0 := by
  rintro rfl
  have hzero : quarters 0 exponent = 0 := by
    rw [quarters, Nat.cast_zero, zero_mul, zero_mul]
  have hlow : ((basin units).low : ℚ) ≤ 0 := hzero ▸ hcontains.bounds.1
  have htwo : (2 : ℚ) ≤ (basin units).low := by exact_mod_cast two_le_low hpos
  linarith

/-- **What is printed lies in the basin.** -/
theorem shortest_contains {units : Nat} (hpos : 0 < units) :
    (basin units).Contains (quarters (shortest units).1 (shortest units).2) := by
  have hfound := Basin.search_spec (basin units) (leadingExponent units unitsPerOne) 16
    (nearest?_isSome_of_grid hpos (grid_le_of_leadingExponent hpos))
  have hholds := Basin.nearest?_holds hfound
  rw [Basin.holds_iff _ (scaleOf_pos _), ← quarters_eq_div] at hholds
  have hshortest : shortest units
      = stripZeros ((basin units).search (leadingExponent units unitsPerOne) 16).1
        ((basin units).search (leadingExponent units unitsPerOne) 16).2 := rfl
  rw [hshortest, quarters_stripZeros (ne_zero_of_contains hpos hholds)]
  exact hholds

/-! ### Reading a decimal from the basin -/

/-- The value of a decimal in a basin, between half a unit and the end of the range. -/
theorem value_bounds {units : Nat} (h : Representable units) (hpos : 0 < units) {coefficient : Nat}
    {exponent : Int} (hcontains : (basin units).Contains (quarters coefficient exponent)) :
    1 ≤ (coefficient : ℚ) * 10 ^ exponent * (2 * unitsPerOne)
      ∧ (coefficient : ℚ) * 10 ^ exponent ≤ 2 ^ (limitBits - oneBits) := by
  obtain ⟨hlow, hhigh⟩ := hcontains.bounds
  have htwo : (2 : ℚ) ≤ (basin units).low := by exact_mod_cast two_le_low hpos
  have hlimit : ((basin units).high : ℚ) ≤ 2 ^ (limitBits - oneBits) * (4 * unitsPerOne) := by
    have hlog : units.log2 < limitBits := (Nat.log2_lt hpos.ne').mpr h.2
    have hnext : units + stepOf units ≤ 2 ^ limitBits :=
      (add_stepOf_le h).trans (Nat.pow_le_pow_right (by decide) hlog)
    have hsplit : 2 ^ (limitBits - oneBits) * unitsPerOne = 2 ^ limitBits := by
      rw [unitsPerOne, ← pow_add, Nat.sub_add_cancel (by decide)]
    have hnat : (basin units).high ≤ 2 ^ (limitBits - oneBits) * (4 * unitsPerOne) := by
      rw [basin_high, mul_left_comm, hsplit]
      omega
    exact_mod_cast hnat
  rw [quarters] at hlow hhigh
  constructor
  · linarith
  · have hone : (0 : ℚ) < unitsPerOne := Nat.cast_pos.mpr unitsPerOne_pos
    exact le_of_mul_le_mul_right (hhigh.trans hlimit) (mul_pos four_pos hone)

/-- The leading digit of a decimal in a basin stands within the range that reading expands. -/
theorem lead_bounds {units : Nat} (h : Representable units) (hpos : 0 < units) {coefficient : Nat}
    {exponent : Int} (hcontains : (basin units).Contains (quarters coefficient exponent)) :
    exponent + digitCount coefficient - 1 < 309
      ∧ -326 < exponent + digitCount coefficient - 1 := by
  have hne := ne_zero_of_contains hpos hcontains
  obtain ⟨hlow, hhigh⟩ := value_bounds h hpos hcontains
  rw [← log_natCast_mul_zpow hne]
  have hvalue : (0 : ℚ) < coefficient * 10 ^ exponent := by positivity
  have hten : (1 : ℚ) < 10 := by norm_num
  generalize (coefficient : ℚ) * 10 ^ exponent = value at hvalue hlow hhigh ⊢
  constructor
  · have hpow : (2 : ℚ) ^ (limitBits - oneBits) < 10 ^ (309 : ℤ) := by
      have hnat : 2 ^ (limitBits - oneBits) < 10 ^ 309 := by decide +kernel
      exact_mod_cast hnat
    have hlt := (zpow_log_le hvalue).trans_lt (hhigh.trans_lt hpow)
    rwa [zpow_lt_zpow_iff_right₀ hten] at hlt
  · have hpow : (2 * unitsPerOne : ℚ) ≤ 10 ^ (325 : ℤ) := by
      have hnat : 2 * unitsPerOne ≤ 10 ^ 325 := by decide +kernel
      exact_mod_cast hnat
    have hle : (10 : ℚ) ^ (-325 : ℤ) ≤ value := by
      rw [zpow_neg, inv_le_iff_one_le_mul₀ (by positivity)]
      exact hlow.trans (mul_le_mul_of_nonneg_left hpow hvalue.le)
    have hlt := hle.trans_lt (lt_zpow_log_add_one hvalue)
    rw [zpow_lt_zpow_iff_right₀ hten] at hlt
    omega

/-- **Reading from the basin.** A decimal in the basin of a number is read as that number. -/
theorem ofDecimal_of_contains {units : Nat} (h : Representable units) (hpos : 0 < units)
    (negative : Bool) {coefficient : Nat} {exponent : Int}
    (hcontains : (basin units).Contains (quarters coefficient exponent)) :
    ofDecimal negative coefficient exponent = .finite negative units h := by
  obtain ⟨hbelow, habove⟩ := lead_bounds h hpos hcontains
  have hscaled : (basin units).holds (4 * (coefficient * 10 ^ exponent.toNat * unitsPerOne))
      (10 ^ (-exponent).toNat) = true := by
    have hholds := hcontains
    rw [quarters_eq_div, ← Basin.holds_iff _ (scaleOf_pos exponent), scaleOf, gridOf] at hholds
    rw [show 4 * (coefficient * 10 ^ exponent.toNat * unitsPerOne)
      = coefficient * (4 * unitsPerOne * 10 ^ exponent.toNat) by ring]
    exact hholds
  have hround := roundUnits_of_holds hpos (Nat.pow_pos (by decide)) hscaled h
  rw [ofDecimal, if_neg (ne_zero_of_contains hpos hcontains)]
  dsimp only
  rw [if_neg (by omega), if_neg (by omega), ofQuotient, hround, ofUnits, dif_pos h]

/-- **The shortest digits are read back.** -/
theorem ofDecimal_shortest {units : Nat} (h : Representable units) (hpos : 0 < units)
    (negative : Bool) :
    ofDecimal negative (shortest units).1 (shortest units).2 = .finite negative units h :=
  ofDecimal_of_contains h hpos negative (shortest_contains hpos)

theorem shortest_ne_zero {units : Nat} (hpos : 0 < units) : (shortest units).1 ≠ 0 :=
  ne_zero_of_contains hpos (shortest_contains hpos)

end Double

end AngleSeries
