import AngleSeries.Double.Arithmetic
import Mathlib.Algebra.Order.Group.Abs
import Mathlib.Algebra.Order.Ring.Int
import Mathlib.Tactic.Ring

/-!
# Whole binary64 numbers

Exponents and step counters are binary64 numbers that hold integers. Up to `2 ^ 53` every integer is
a binary64 number, so sums that stay there are exact; beyond it a sum may be rounded, but never back
to a safe integer. The check for safe integers therefore sees exactly the sums that were exact.
-/

namespace AngleSeries

theorem log2_mul_pow {m : Nat} (hm : m ≠ 0) (e : Nat) : (m * 2 ^ e).log2 = m.log2 + e := by
  rw [Nat.log2_eq_iff (mul_ne_zero hm (Nat.two_pow_pos e).ne'), Nat.add_right_comm, pow_add, pow_add]
  exact ⟨Nat.mul_le_mul_right _ (Nat.log2_self_le hm),
    Nat.mul_lt_mul_of_pos_right Nat.lt_log2_self (Nat.two_pow_pos e)⟩

/-- Scaling by a power of two keeps fifty-three binary digits. -/
theorem scaled_mod_eq_zero {m : Nat} (hm : m ≤ 2 ^ 53) (e : Nat) :
    m * 2 ^ e % 2 ^ ((m * 2 ^ e).log2 - 52) = 0 := by
  refine Nat.mod_eq_zero_of_dvd ?_
  rcases hm.lt_or_eq with hlt | rfl
  · by_cases hzero : m = 0
    · simp [hzero]
    have hne : m * 2 ^ e ≠ 0 := mul_ne_zero hzero (pow_ne_zero _ (by decide))
    have hlog : (m * 2 ^ e).log2 < 53 + e := by
      rw [Nat.log2_lt hne, pow_add]
      exact Nat.mul_lt_mul_of_pos_right hlt (Nat.two_pow_pos _)
    exact Dvd.dvd.mul_left (pow_dvd_pow 2 (by omega)) m
  · rw [← pow_add, Nat.log2_two_pow]
    exact pow_dvd_pow 2 (by omega)

/-- Fifty-three binary digits are representable at every scale of finite numbers. -/
theorem representable_scaled {m e : Nat} (hm : m ≤ 2 ^ 53) (he : 53 + e < limitBits) :
    Representable (m * 2 ^ e) := by
  rw [Representable, unitsLimit]
  refine ⟨scaled_mod_eq_zero hm e, ?_⟩
  calc m * 2 ^ e ≤ 2 ^ 53 * 2 ^ e := Nat.mul_le_mul_right _ hm
    _ = 2 ^ (53 + e) := (pow_add 2 53 e).symm
    _ < 2 ^ limitBits := Nat.pow_lt_pow_right (by decide) he

/-- Every integer up to `2 ^ 53` in magnitude is a binary64 number. -/
theorem representable_whole {m : Nat} (hm : m ≤ 2 ^ 53) : Representable (m * unitsPerOne) :=
  representable_scaled hm (by decide)

namespace Double

/-! ### Rounding units -/

theorem roundUnits_of_representable {n : Nat} (hn : Representable n) : roundUnits n 1 = n := by
  have hstep : 0 < 2 ^ (n.log2 - 52) := Nat.two_pow_pos _
  have hexact : roundHalfEven n (2 ^ (n.log2 - 52)) = n / 2 ^ (n.log2 - 52) := by
    simp only [roundHalfEven, hn.1, Nat.mul_zero, hstep, if_true]
  rw [roundUnits, Nat.div_one, one_mul, hexact]
  exact Nat.div_mul_cancel (Nat.dvd_of_mod_eq_zero hn.1)

theorem div_le_roundHalfEven (n d : Nat) : n / d ≤ roundHalfEven n d := by
  unfold roundHalfEven
  dsimp only
  split_ifs <;> omega

/-- Rounding does not go below a power of two. -/
theorem pow_le_roundUnits {n e : Nat} (hle : 2 ^ e ≤ n) : 2 ^ e ≤ roundUnits n 1 := by
  have hne : n ≠ 0 := fun h => by simp [h] at hle
  have hlog : e ≤ n.log2 := (Nat.le_log2 hne).mpr hle
  rw [roundUnits, Nat.div_one, one_mul]
  have hsplit : 2 ^ n.log2 = 2 ^ (n.log2 - (n.log2 - 52)) * 2 ^ (n.log2 - 52) := by
    rw [← pow_add]
    congr 1
    omega
  calc 2 ^ e ≤ 2 ^ n.log2 := Nat.pow_le_pow_right (by decide) hlog
    _ = 2 ^ (n.log2 - (n.log2 - 52)) * 2 ^ (n.log2 - 52) := hsplit
    _ ≤ n / 2 ^ (n.log2 - 52) * 2 ^ (n.log2 - 52) := by
        refine Nat.mul_le_mul_right _ ?_
        rw [Nat.le_div_iff_mul_le (Nat.two_pow_pos _), ← hsplit]
        exact Nat.log2_self_le hne
    _ ≤ roundHalfEven n (2 ^ (n.log2 - 52)) * 2 ^ (n.log2 - 52) :=
        Nat.mul_le_mul_right _ (div_le_roundHalfEven _ _)

/-! ### Integers -/

theorem unitsPerOne_pos : 0 < unitsPerOne := Nat.two_pow_pos oneBits

theorem ofInt_eq_finite {i : Int} (hi : i.natAbs ≤ 2 ^ 53) :
    ofInt i = .finite (decide (i < 0)) (i.natAbs * unitsPerOne) (representable_whole hi) := by
  rw [ofInt, ofQuotient, roundUnits_of_representable (representable_whole hi), ofUnits,
    dif_pos (representable_whole hi)]

theorem ofNat_eq_finite {n : Nat} (hn : n ≤ 2 ^ 53) :
    ofNat n = .finite false (n * unitsPerOne) (representable_whole hn) := by
  rw [ofNat, ofInt_eq_finite (by omega)]
  simp

theorem toInt?_ofInt {i : Int} (hi : i.natAbs ≤ 2 ^ 53) : (ofInt i).toInt? = some i := by
  rw [ofInt_eq_finite hi]
  simp only [toInt?, Nat.mul_mod_left, if_true, Nat.mul_div_cancel _ unitsPerOne_pos,
    Option.some.injEq, decide_eq_true_eq]
  split_ifs <;> omega

@[simp]
theorem toInt?_signedZero (negative : Bool) : (signedZero negative).toInt? = some 0 := by
  cases negative <;> simp [signedZero, toInt?]

theorem ofNat_eq_ofInt (n : Nat) : (OfNat.ofNat n : Double) = ofInt n := by
  change ofNat n = ofInt n
  rw [ofNat]

theorem zero_eq_signedZero : (0 : Double) = signedZero false := by
  rw [ofNat_eq_ofInt, Int.natCast_zero, ofInt_eq_finite (by decide), signedZero]
  simp

theorem toInt?_ofNat {n : Nat} (hn : n ≤ 2 ^ 53) : (OfNat.ofNat n : Double).toInt? = some ↑n := by
  rw [ofNat_eq_ofInt]
  exact toInt?_ofInt hn

theorem scaled_neg_iff (i : Int) : i * (unitsPerOne : Int) < 0 ↔ i < 0 := by
  have hone : (0 : Int) < unitsPerOne := by exact_mod_cast unitsPerOne_pos
  constructor
  · intro hscaled
    exact neg_of_mul_neg_left hscaled hone.le
  · intro hneg
    exact mul_neg_of_neg_of_pos hneg hone

/-- A number that is an integer has that many times the units of one. -/
theorem exists_of_toInt? {x : Double} {i : Int} (hx : x.toInt? = some i) :
    ∃ negative units h, x = .finite negative units h
      ∧ (if negative then -(units : Int) else units) = i * unitsPerOne := by
  cases x with
  | nan => cases hx
  | infinite _ => cases hx
  | finite negative units h =>
      refine ⟨negative, units, h, rfl, ?_⟩
      simp only [toInt?] at hx
      split at hx
      case isFalse => cases hx
      case isTrue hwhole =>
        have hunits : ((units / unitsPerOne : Nat) : Int) * unitsPerOne = units := by
          exact_mod_cast Nat.div_mul_cancel (Nat.dvd_of_mod_eq_zero hwhole)
        cases negative <;> simp only [Bool.false_eq_true, if_true, if_false, Option.some.injEq]
          at hx ⊢ <;> rw [← hx]
        · exact hunits.symm
        · rw [neg_mul, hunits]

/-- One integer other than zero is one number; zero has two. -/
theorem eq_of_toInt?_eq {x y : Double} {i : Int} (hx : x.toInt? = some i) (hy : y.toInt? = some i)
    (hne : i ≠ 0) : x = y := by
  obtain ⟨a, m, hm, rfl, hmi⟩ := exists_of_toInt? hx
  obtain ⟨b, n, hn, rfl, hni⟩ := exists_of_toInt? hy
  have hunits : i * (unitsPerOne : Int) ≠ 0 :=
    mul_ne_zero hne (by exact_mod_cast unitsPerOne_pos.ne')
  generalize i * (unitsPerOne : Int) = total at hmi hni hunits
  have hsame : a = b ∧ m = n := by
    cases a <;> cases b <;> simp only [Bool.false_eq_true, if_true, if_false] at hmi hni <;>
      simp <;> omega
  obtain ⟨rfl, rfl⟩ := hsame
  rfl

theorem isFinite_of_toInt? {x : Double} {i : Int} (hx : x.toInt? = some i) : x.isFinite = true := by
  obtain ⟨negative, units, h, rfl, -⟩ := exists_of_toInt? hx
  rfl

theorem isZero_iff {x : Double} {i : Int} (hx : x.toInt? = some i) : x.isZero = true ↔ i = 0 := by
  obtain ⟨negative, units, h, rfl, hunits⟩ := exists_of_toInt? hx
  have hone : (unitsPerOne : Int) ≠ 0 := by exact_mod_cast unitsPerOne_pos.ne'
  have hzero : units = 0 ↔ i * (unitsPerOne : Int) = 0 := by
    rw [← hunits]
    cases negative <;> simp
  simp only [isZero, beq_iff_eq, hzero, mul_eq_zero, hone, or_false]

theorem lt_zero_iff {x : Double} {i : Int} (hx : x.toInt? = some i) : x.lt 0 = true ↔ i < 0 := by
  obtain ⟨negative, units, h, rfl, hunits⟩ := exists_of_toInt? hx
  rw [zero_eq_signedZero, ← scaled_neg_iff, ← hunits]
  exact decide_eq_true_iff

theorem toInt?_neg {x : Double} {i : Int} (hx : x.toInt? = some i) :
    (neg x).toInt? = some (-i) := by
  cases x with
  | nan => cases hx
  | infinite _ => cases hx
  | finite negative units h =>
      simp only [toInt?, neg] at hx ⊢
      split at hx
      case isFalse => cases hx
      case isTrue hwhole =>
        rw [if_pos hwhole, ← Option.some.inj hx]
        generalize ((units / unitsPerOne : ℕ) : ℤ) = magnitude
        cases negative <;> simp

/-- An integer that is not negative has as many natural numbers below it. -/
theorem naturalsBelow_of_toInt? {x : Double} {n : ℕ} (hx : x.toInt? = some (n : ℤ)) :
    x.naturalsBelow = n := by
  obtain ⟨negative, units, h, rfl, hunits⟩ := exists_of_toInt? hx
  have hone := unitsPerOne_pos
  cases negative with
  | true =>
      have hn : n = 0 := by
        by_contra hne
        have hpos := mul_pos (Int.natCast_pos.mpr (Nat.pos_of_ne_zero hne))
          (Int.natCast_pos.mpr hone)
        rw [← hunits] at hpos
        simp only [if_true] at hpos
        omega
      simp only [naturalsBelow, if_true, hn]
  | false =>
      have hnat : units = unitsPerOne * n := by
        rw [mul_comm]
        refine Int.natCast_inj.mp ?_
        rw [Nat.cast_mul, ← hunits]
        simp only [Bool.false_eq_true, if_false]
      simp only [naturalsBelow, Bool.false_eq_true, if_false]
      rw [hnat, Nat.mul_add_div hone, Nat.div_eq_of_lt (Nat.sub_lt hone Nat.one_pos), add_zero]

/-- A sum of integers is rounded like the integer it should be. -/
theorem add_eq_ofInt {x y : Double} {i j : Int} (hx : x.toInt? = some i) (hy : y.toInt? = some j)
    (hne : i + j ≠ 0) : x + y = ofInt (i + j) := by
  obtain ⟨a, m, hm, rfl, hmi⟩ := exists_of_toInt? hx
  obtain ⟨b, n, hn, rfl, hnj⟩ := exists_of_toInt? hy
  have hsum : (i + j) * (unitsPerOne : Int) ≠ 0 :=
    mul_ne_zero hne (by exact_mod_cast unitsPerOne_pos.ne')
  change ofSum (a && b) ((if a then -(m : Int) else m) + (if b then -(n : Int) else n)) = _
  rw [hmi, hnj, ← add_mul, ofSum, if_neg hsum, ofInt, Int.natAbs_mul, Int.natAbs_natCast]
  congr 1
  exact Bool.decide_congr (scaled_neg_iff _)

theorem add_eq_zero {x y : Double} {i j : Int} (hx : x.toInt? = some i) (hy : y.toInt? = some j)
    (hzero : i + j = 0) : ∃ negative, x + y = signedZero negative := by
  obtain ⟨a, m, hm, rfl, hmi⟩ := exists_of_toInt? hx
  obtain ⟨b, n, hn, rfl, hnj⟩ := exists_of_toInt? hy
  refine ⟨a && b, ?_⟩
  change ofSum (a && b) ((if a then -(m : Int) else m) + (if b then -(n : Int) else n)) = _
  rw [hmi, hnj, ← add_mul, hzero, zero_mul, ofSum, if_pos rfl]

/-- Sums of exact integers start at a zero without a sign, so even a sum of zero is the number of an
integer. -/
theorem ofInt_add {i j : Int} {y : Double} (hi : i.natAbs ≤ 2 ^ 53) (hy : y.toInt? = some j) :
    ofInt i + y = ofInt (i + j) := by
  have hx := toInt?_ofInt hi
  by_cases hzero : i + j = 0
  · obtain ⟨b, n, hn, rfl, hnj⟩ := exists_of_toInt? hy
    -- Only two negative zeros make one, and an integer is never a negative zero.
    have hsign : (decide (i < 0) && b) = false := by
      by_contra hboth
      rw [Bool.not_eq_false, Bool.and_eq_true, decide_eq_true_eq] at hboth
      obtain ⟨hneg, rfl⟩ := hboth
      have hpos : 0 < j * (unitsPerOne : Int) :=
        mul_pos (by omega) (by exact_mod_cast unitsPerOne_pos)
      rw [← hnj, if_pos rfl] at hpos
      exact (neg_nonpos.mpr (Int.natCast_nonneg n)).not_gt hpos
    obtain ⟨a, m, hm, hfinite, hmi⟩ := exists_of_toInt? hx
    have ha : a = decide (i < 0) :=
      (finite.inj ((ofInt_eq_finite hi).symm.trans hfinite)).1.symm
    rw [hfinite, hzero]
    change ofSum (a && b) ((if a then -(m : Int) else m) + (if b then -(n : Int) else n)) = _
    rw [hmi, hnj, ← add_mul, hzero, zero_mul, ofSum, if_pos rfl, ha, hsign, ← zero_eq_signedZero,
      ofNat_eq_ofInt, Int.natCast_zero]
  · exact add_eq_ofInt hx hy hzero

theorem ofInt_sub {i j : Int} {y : Double} (hi : i.natAbs ≤ 2 ^ 53) (hy : y.toInt? = some j) :
    ofInt i - y = ofInt (i - j) := by
  rw [Int.sub_eq_add_neg]
  exact ofInt_add hi (toInt?_neg hy)

theorem zero_add_eq_ofInt {x : Double} {i : Int} (hx : x.toInt? = some i) : 0 + x = ofInt i := by
  rw [ofNat_eq_ofInt, ofInt_add (by decide) hx, Int.natCast_zero, Int.zero_add]

theorem ofInt_add_zero {i : Int} (hi : i.natAbs ≤ 2 ^ 53) : ofInt i + 0 = ofInt i := by
  rw [ofInt_add hi (toInt?_ofNat (by decide)), Int.natCast_zero, Int.add_zero]

theorem ofInt_sub_zero {i : Int} (hi : i.natAbs ≤ 2 ^ 53) : ofInt i - 0 = ofInt i := by
  rw [ofInt_sub hi (toInt?_ofNat (by decide)), Int.natCast_zero, Int.sub_zero]

/-- **Exact sums.** Integers whose sum is at most `2 ^ 53` in magnitude are added exactly. -/
theorem toInt?_add {x y : Double} {i j : Int} (hx : x.toInt? = some i) (hy : y.toInt? = some j)
    (hle : (i + j).natAbs ≤ 2 ^ 53) : (x + y).toInt? = some (i + j) := by
  by_cases hzero : i + j = 0
  · obtain ⟨negative, hsum⟩ := add_eq_zero hx hy hzero
    rw [hsum, hzero, toInt?_signedZero]
  · rw [add_eq_ofInt hx hy hzero, toInt?_ofInt hle]

/-- Counting on by one is exact up to `2 ^ 53` and stays there: the next integer lies halfway between
two numbers, of which `2 ^ 53` is the even one. -/
theorem toInt?_add_one {x : Double} {n : ℕ} (hx : x.toInt? = some (n : ℤ)) (hn : n ≤ 2 ^ 53) :
    (x + 1).toInt? = some ((min (n + 1) (2 ^ 53) : ℕ) : ℤ) := by
  have hone : (1 : Double).toInt? = some ((1 : ℕ) : ℤ) := toInt?_ofNat (by decide)
  rcases hn.lt_or_eq with hlt | rfl
  · rw [toInt?_add hx hone (by omega), min_eq_left (by omega), Nat.cast_add]
  · have hround : (ofInt (2 ^ 53 + 1)).toInt? = some (2 ^ 53) := by decide +kernel
    rw [add_eq_ofInt hx hone (by decide), min_eq_right (by omega)]
    exact hround

theorem toInt?_sub {x y : Double} {i j : Int} (hx : x.toInt? = some i) (hy : y.toInt? = some j)
    (hle : (i - j).natAbs ≤ 2 ^ 53) : (x - y).toInt? = some (i - j) := by
  rw [Int.sub_eq_add_neg] at hle ⊢
  exact toInt?_add hx (toInt?_neg hy) hle

/-! ### Safe integers -/

theorem natAbs_le_of_safe {i : Int} (hi : |i| ≤ maxSafe) : i.natAbs ≤ 2 ^ 53 := by
  have hmax : maxSafe = 2 ^ 53 - 1 := rfl
  rw [hmax, ← Int.natCast_natAbs] at hi
  omega

theorem isSafeInteger_of_toInt? {x : Double} {i : Int} (hx : x.toInt? = some i) :
    x.isSafeInteger = true ↔ |i| ≤ maxSafe := by
  rw [isSafeInteger, toSafeInt?, hx, abs_le]
  simp [Option.isSome_filter]

theorem exists_of_isSafeInteger {x : Double} (hsafe : x.isSafeInteger = true) :
    ∃ i, x.toInt? = some i ∧ |i| ≤ maxSafe := by
  rw [isSafeInteger, toSafeInt?, Option.isSome_filter, Option.any_eq_true] at hsafe
  obtain ⟨i, hi, hbound⟩ := hsafe
  exact ⟨i, hi, abs_le.mpr (of_decide_eq_true hbound)⟩

/-- An integer beyond the safe ones stays beyond them when it is rounded. -/
theorem isSafeInteger_ofInt (i : Int) : (ofInt i).isSafeInteger = true ↔ |i| ≤ maxSafe := by
  by_cases hsmall : i.natAbs ≤ 2 ^ 53
  · exact isSafeInteger_of_toInt? (toInt?_ofInt hsmall)
  have hmax : maxSafe = 2 ^ 53 - 1 := rfl
  have hlarge : ¬ |i| ≤ maxSafe := by
    rw [hmax, ← Int.natCast_natAbs]
    omega
  -- `2 ^ 53` is a binary64 number, so rounding does not go back below it.
  refine iff_of_false (fun hsafe => ?_) hlarge
  have hpow : 2 ^ (53 + oneBits) ≤ roundUnits (i.natAbs * unitsPerOne) 1 := by
    refine pow_le_roundUnits ?_
    rw [pow_add]
    exact Nat.mul_le_mul_right _ (by omega)
  obtain ⟨k, hk, hbound⟩ := exists_of_isSafeInteger hsafe
  obtain ⟨negative, units, h, hfinite, hunits⟩ := exists_of_toInt? hk
  rw [ofInt, ofQuotient, ofUnits] at hfinite
  split at hfinite
  case isFalse => cases hfinite
  case isTrue hrep =>
    injection hfinite with hsign hround
    rw [hround] at hpow
    have hkUnits : units = k.natAbs * unitsPerOne := by
      have := congrArg Int.natAbs hunits
      rw [Int.natAbs_mul, Int.natAbs_natCast] at this
      rw [← this]
      cases negative <;> simp
    rw [hkUnits, pow_add] at hpow
    have hkLarge : 2 ^ 53 ≤ k.natAbs := Nat.le_of_mul_le_mul_right hpow unitsPerOne_pos
    have hkBound := abs_le.mp hbound
    rw [hmax] at hkBound
    omega

/-- **The safe sums are the exact ones.** -/
theorem isSafeInteger_add {x y : Double} {i j : Int} (hx : x.toInt? = some i)
    (hy : y.toInt? = some j) : (x + y).isSafeInteger = true ↔ |i + j| ≤ maxSafe := by
  by_cases hzero : i + j = 0
  · exact isSafeInteger_of_toInt? (toInt?_add hx hy (by simp [hzero]))
  · rw [add_eq_ofInt hx hy hzero]
    exact isSafeInteger_ofInt _

theorem isSafeInteger_sub {x y : Double} {i j : Int} (hx : x.toInt? = some i)
    (hy : y.toInt? = some j) : (x - y).isSafeInteger = true ↔ |i - j| ≤ maxSafe := by
  rw [Int.sub_eq_add_neg]
  exact isSafeInteger_add hx (toInt?_neg hy)

/-- Adding zero changes nothing but the sign of a zero. -/
theorem add_zero_eq (x : Double) : x + 0 = x ∨ x.toInt? = some 0 ∧ (x + 0).toInt? = some 0 := by
  rw [zero_eq_signedZero]
  cases x with
  | nan => exact .inl rfl
  | infinite negative => exact .inl rfl
  | finite negative units h =>
      change ofSum (negative && false) ((if negative then -(units : Int) else units) + 0) = _ ∨ _
      by_cases hunits : units = 0
      · subst hunits
        exact .inr ⟨toInt?_signedZero negative, toInt?_add (toInt?_signedZero negative)
          (toInt?_signedZero false) (by decide)⟩
      · left
        have hsum : (if negative then -(units : Int) else units) + 0 ≠ 0 := by
          cases negative <;> simp [hunits]
        have hnat : ((if negative then -(units : Int) else units) + 0).natAbs = units := by
          cases negative <;> simp
        have hsign : decide ((if negative then -(units : Int) else units) + 0 < 0) = negative := by
          cases negative <;> simp [Nat.pos_of_ne_zero hunits]
        rw [ofSum, if_neg hsum, hnat, hsign, ofQuotient, roundUnits_of_representable h, ofUnits,
          dif_pos h]

theorem isSafeInteger_add_zero (x : Double) : (x + 0).isSafeInteger = x.isSafeInteger := by
  rcases add_zero_eq x with hsame | ⟨hx, hsum⟩
  · rw [hsame]
  · rw [isSafeInteger, toSafeInt?, hsum, isSafeInteger, toSafeInt?, hx]

end Double

end AngleSeries
