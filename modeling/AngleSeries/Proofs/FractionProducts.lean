import AngleSeries.Proofs.ExactFractions
import Mathlib.Algebra.BigOperators.Ring.List
import Mathlib.Algebra.Order.BigOperators.GroupWithZero.List

/-!
# Products and quotients of fractions

Numerators and denominators multiply exactly, so a product can go wrong in one place only: its
exponents are binary64 numbers that are added up one after the other, and nothing but the last sum
is checked. A partial sum beyond `2 ^ 53` may be rounded and come back to a safe integer that is not
the sum of the exponents. Two exponents cannot do that, because a sum that had to be rounded is not
safe. Hence a quotient is exact or refused, and so is a product of no more than two factors.
-/

namespace AngleSeries

namespace Fraction

/-- A fraction that can be built. -/
def Buildable (value : Fraction) : Prop :=
  ∃ n d e, make n d e = .ok value

/-- The exponent as an integer. -/
def power (value : Fraction) : ℤ :=
  value.exponent.toInt?.getD 0

theorem toRat_eq_ratio_mul (value : Fraction) : value.toRat = value.ratio * 10 ^ value.power := rfl

theorem isSafeInteger_of_make {n d : ℤ} {e : Double} {value : Fraction}
    (hmake : make n d e = .ok value) : value.exponent.isSafeInteger = true := by
  obtain ⟨-, hsafe, -, -, hexponent⟩ := make_eq_ok_iff.mp hmake
  rw [hexponent, hsafe]

theorem Buildable.exponent {value : Fraction} (hbuilt : value.Buildable) :
    value.exponent.toInt? = some value.power ∧ |value.power| ≤ Double.maxSafe := by
  obtain ⟨n, d, e, hmake⟩ := hbuilt
  obtain ⟨i, hi, hbound⟩ := Double.exists_of_isSafeInteger (isSafeInteger_of_make hmake)
  have hpower : value.power = i := by rw [power, hi, Option.getD_some]
  rw [hpower]
  exact ⟨hi, hbound⟩

theorem buildable_of_safe {value : Fraction} (hsafe : value.exponent.isSafeInteger = true) :
    value.Buildable :=
  ⟨value.numerator, value.denominator, value.exponent,
    make_of_pos value.numerator value.positive hsafe⟩

/-- An outcome that is either a complaint about a range or the exact value. -/
def RefusedOrExact (outcome : Except Fault Fraction) (exact : ℚ) : Prop :=
  (∃ fault, outcome = .error (.range fault))
    ∨ ∃ value, outcome = .ok value ∧ 0 < value.denominator ∧ value.toRat = exact

/-! ### Sums of exponents -/

/-- The exponents of the factors, added up from the left and rounded on the way. -/
def exponentSum (factors : List Fraction) : Double :=
  factors.foldl (fun e factor => e + factor.exponent) 0

/-- The sum of the exponents. -/
def totalPower (factors : List Fraction) : ℤ :=
  (factors.map power).sum

/-- Short of the last sum, no partial sum of the exponents leaves the range where all integers are
binary64 numbers. -/
def Steady (factors : List Fraction) : Prop :=
  ∀ front rest, factors = front ++ rest → rest ≠ [] → |totalPower front| ≤ 2 ^ 53

/-- The exponents come to a safe sum that is not theirs, and no factor is zero to make up for it. -/
structure Drifts (factors : List Fraction) : Prop where
  safe : (exponentSum factors).isSafeInteger = true
  astray : (exponentSum factors).toInt? ≠ some (totalPower factors)
  nonzero : ∀ factor ∈ factors, factor.numerator ≠ 0

theorem totalPower_append (front rest : List Fraction) :
    totalPower (front ++ rest) = totalPower front + totalPower rest := by
  rw [totalPower, List.map_append, List.sum_append, totalPower, totalPower]

theorem natAbs_le_of_abs_le {i : ℤ} (hi : |i| ≤ 2 ^ 53) : i.natAbs ≤ 2 ^ 53 := by
  rw [← Int.natCast_natAbs] at hi
  exact_mod_cast hi

section Product

variable {factors : List Fraction}

theorem Steady.front {front : List Fraction} {last : Fraction}
    (hsteady : Steady (front ++ [last])) : Steady front := by
  intro begin rest hsplit hrest
  refine hsteady begin (rest ++ [last]) ?_
    (List.append_ne_nil_of_right_ne_nil _ (List.cons_ne_nil _ _))
  rw [hsplit, List.append_assoc]

theorem exponentSum_concat (front : List Fraction) (last : Fraction) :
    exponentSum (front ++ [last]) = exponentSum front + last.exponent := by
  rw [exponentSum, List.foldl_append, List.foldl_cons, List.foldl_nil, exponentSum]

theorem totalPower_concat (front : List Fraction) (last : Fraction) :
    totalPower (front ++ [last]) = totalPower front + last.power := by
  rw [totalPower_append, totalPower, totalPower, List.map_singleton, List.sum_singleton]

/-- Steady exponents are added up without a loss, the last sum possibly rounded. -/
theorem exponentSum_eq (hbuilt : ∀ factor ∈ factors, factor.Buildable) (hsteady : Steady factors) :
    exponentSum factors = Double.ofInt (totalPower factors) := by
  induction factors using List.reverseRecOn with
  | nil =>
      rw [exponentSum, List.foldl_nil, totalPower, List.map_nil, List.sum_nil,
        Double.ofNat_eq_ofInt, Int.natCast_zero]
  | append_singleton front last ih =>
      have hlast := (hbuilt last (by simp)).exponent.1
      have hfront := ih (fun factor hmem => hbuilt factor (by simp [hmem])) hsteady.front
      have hbound := natAbs_le_of_abs_le (hsteady front [last] rfl (List.cons_ne_nil _ _))
      rw [exponentSum_concat, hfront, totalPower_concat]
      exact Double.ofInt_add hbound hlast

/-- Exponents that are small in total are steady in every order. -/
theorem steady_of_sum_le (hsum : (factors.map fun factor => |factor.power|).sum ≤ 2 ^ 53)
    {others : List Fraction} (hperm : others.Perm factors) : Steady others := by
  have habs : ∀ row : List Fraction,
      |totalPower row| ≤ (row.map fun factor => |factor.power|).sum := by
    intro row
    induction row with
    | nil => exact le_rfl
    | cons factor row ih =>
        rw [totalPower, List.map_cons, List.sum_cons, List.map_cons, List.sum_cons]
        exact (abs_add_le _ _).trans (add_le_add_right ih _)
  intro front rest hsplit _
  have hrest : 0 ≤ (rest.map fun factor => |factor.power|).sum := (abs_nonneg _).trans (habs rest)
  rw [← (hperm.map _).sum_eq, hsplit, List.map_append, List.sum_append] at hsum
  have := habs front
  omega

theorem steady_of_length_le (hbuilt : ∀ factor ∈ factors, factor.Buildable)
    (hlength : factors.length ≤ 2) : Steady factors := by
  intro front rest hsplit hrest
  have hshort := List.length_pos_of_ne_nil hrest
  rw [hsplit, List.length_append] at hlength
  cases front with
  | nil =>
      rw [totalPower, List.map_nil, List.sum_nil, abs_zero]
      positivity
  | cons single others =>
      have hothers : others = [] := by
        rw [← List.length_eq_zero_iff]
        rw [List.length_cons] at hlength
        omega
      have hbound := (hbuilt single (by simp [hsplit])).exponent.2
      have hmax : Double.maxSafe = 2 ^ 53 - 1 := rfl
      rw [hothers, totalPower, List.map_singleton, List.sum_singleton]
      exact hbound.trans (hmax.trans_le (sub_le_self _ one_pos.le))

/-! ### Products -/

theorem product_eq_make (factors : List Fraction) :
    product factors = make (factors.map numerator).prod ((factors.map denominator).prod : ℕ)
      (exponentSum factors) := by
  rw [product, exponentSum, List.prod_eq_foldl, List.foldl_map, List.prod_eq_foldl, List.foldl_map]

theorem prod_denominator_pos (factors : List Fraction) : 0 < (factors.map denominator).prod := by
  refine List.prod_pos fun d hmem => ?_
  obtain ⟨factor, -, rfl⟩ := List.mem_map.mp hmem
  exact factor.positive

theorem prod_toRat (factors : List Fraction) :
    (factors.map toRat).prod
      = ((factors.map numerator).prod : ℚ) / ((factors.map denominator).prod : ℕ)
        * 10 ^ totalPower factors := by
  induction factors with
  | nil => simp [totalPower]
  | cons factor factors ih =>
      have hpower : totalPower (factor :: factors) = factor.power + totalPower factors := by
        rw [totalPower, List.map_cons, List.sum_cons, totalPower]
      rw [List.map_cons, List.prod_cons, ih, hpower, zpow_add₀ (by norm_num), toRat_eq_ratio_mul,
        ratio, List.map_cons, List.prod_cons, List.map_cons, List.prod_cons]
      push_cast
      ring

theorem prod_toRat_eq_zero_iff (factors : List Fraction) :
    (factors.map toRat).prod = 0 ↔ ∃ factor ∈ factors, factor.numerator = 0 := by
  have hden := (prod_denominator_pos factors).ne'
  rw [prod_toRat, mul_eq_zero, div_eq_zero_iff, Nat.cast_eq_zero, Int.cast_eq_zero,
    List.prod_eq_zero_iff, List.mem_map]
  simp [hden, zpow_ne_zero]

theorem product_of_not_safe (hnot : (exponentSum factors).isSafeInteger = false) :
    product factors = .error (.range (.unsafeExponent (exponentSum factors).text)) := by
  rw [product_eq_make]
  exact make_of_not_safe _ (by exact_mod_cast (prod_denominator_pos factors).ne') hnot

/-- With a safe sum there is a product, and only its power of ten may differ from the exact one. -/
theorem product_of_safe (hsafe : (exponentSum factors).isSafeInteger = true) :
    ∃ value, product factors = .ok value ∧ value.exponent = exponentSum factors
      ∧ value.toRat * 10 ^ totalPower factors
        = (factors.map toRat).prod * 10 ^ value.power := by
  obtain ⟨value, hvalue, hparts⟩ := make_of_safe (factors.map numerator).prod
    (by exact_mod_cast (prod_denominator_pos factors).ne' :
      (((factors.map denominator).prod : ℕ) : ℤ) ≠ 0) hsafe
  refine ⟨value, by rw [product_eq_make, hvalue], hparts.exponent, ?_⟩
  rw [prod_toRat, toRat_eq_ratio_mul, hparts.ratio, Int.cast_natCast]
  ring

theorem toRat_eq_prod_iff {value : Fraction} {exact : ℚ} {total : ℤ}
    (hvalue : value.toRat * 10 ^ total = exact * 10 ^ value.power) :
    value.toRat = exact ↔ exact = 0 ∨ value.power = total := by
  have hten : (10 : ℚ) ^ total ≠ 0 := by positivity
  constructor
  · intro heq
    rw [heq] at hvalue
    by_cases hzero : exact = 0
    · exact .inl hzero
    · exact .inr (zpow_right_injective₀ (by norm_num) (by norm_num)
        (mul_left_cancel₀ hzero hvalue)).symm
  · rintro (rfl | heq)
    · rw [zero_mul, mul_eq_zero] at hvalue
      exact hvalue.resolve_right hten
    · rw [heq] at hvalue
      exact mul_right_cancel₀ hten hvalue

/-- **Where products go wrong.** A product is refused or exact unless its exponents drift. -/
theorem refusedOrExact_product_iff (factors : List Fraction) :
    RefusedOrExact (product factors) (factors.map toRat).prod ↔ ¬ Drifts factors := by
  cases hsafe : (exponentSum factors).isSafeInteger with
  | false =>
      refine iff_of_true (.inl ⟨_, product_of_not_safe hsafe⟩) fun hdrifts => ?_
      rw [hdrifts.safe] at hsafe
      cases hsafe
  | true =>
      obtain ⟨value, hvalue, hexponent, hscaled⟩ := product_of_safe hsafe
      have hpower : (exponentSum factors).toInt? = some value.power := by
        rw [← hexponent]
        exact (Buildable.exponent ⟨_, _, _, (product_eq_make factors).symm.trans hvalue⟩).1
      have hexact : RefusedOrExact (product factors) (factors.map toRat).prod
          ↔ value.toRat = (factors.map toRat).prod := by
        rw [RefusedOrExact, hvalue]
        simp [value.positive]
      rw [hexact, toRat_eq_prod_iff hscaled, prod_toRat_eq_zero_iff]
      constructor
      · rintro (⟨factor, hmem, hzero⟩ | heq) hdrifts
        · exact hdrifts.nonzero factor hmem hzero
        · exact hdrifts.astray (hpower.trans (congrArg some heq))
      · intro hnot
        by_contra hneither
        rw [not_or, not_exists] at hneither
        refine hnot ⟨hsafe, ?_, fun factor hmem hzero => hneither.1 factor ⟨hmem, hzero⟩⟩
        rw [hpower]
        exact fun heq => hneither.2 (Option.some.inj heq)

theorem not_drifts_of_steady (hbuilt : ∀ factor ∈ factors, factor.Buildable)
    (hsteady : Steady factors) : ¬ Drifts factors := by
  intro hdrifts
  have hsum := exponentSum_eq hbuilt hsteady
  have hsafe := hdrifts.safe
  rw [hsum, Double.isSafeInteger_ofInt] at hsafe
  exact hdrifts.astray (by rw [hsum, Double.toInt?_ofInt (Double.natAbs_le_of_safe hsafe)])

/-- Steady factors have one outcome, whatever their order. -/
theorem product_eq_of_perm (hbuilt : ∀ factor ∈ factors, factor.Buildable) {others : List Fraction}
    (hperm : others.Perm factors) (hsteady : Steady factors) (hothers : Steady others) :
    product others = product factors := by
  have hsame : totalPower others = totalPower factors := (hperm.map _).sum_eq
  rw [product_eq_make, product_eq_make, exponentSum_eq hbuilt hsteady,
    exponentSum_eq (fun factor hmem => hbuilt factor (hperm.mem_iff.mp hmem)) hothers, hsame,
    (hperm.map numerator).prod_eq, (hperm.map denominator).prod_eq]

theorem exists_product_iff (hbuilt : ∀ factor ∈ factors, factor.Buildable)
    (hsteady : Steady factors) :
    (∃ value, product factors = .ok value) ↔ |totalPower factors| ≤ Double.maxSafe := by
  rw [← Double.isSafeInteger_ofInt, ← exponentSum_eq hbuilt hsteady]
  constructor
  · rintro ⟨value, hvalue⟩
    by_contra hnot
    rw [product_of_not_safe (Bool.eq_false_iff.mpr hnot)] at hvalue
    cases hvalue
  · intro hsafe
    obtain ⟨value, hvalue, -⟩ := product_of_safe hsafe
    exact ⟨value, hvalue⟩

end Product

/-! ### Quotients -/

section Quotient

variable {a b : Fraction} (ha : a.Buildable) (hb : b.Buildable)

theorem quotient_of_zero (a : Fraction) (hzero : b.numerator = 0) :
    quotient a b = .error (.range .zeroDenominator) := by
  rw [quotient, make, dif_pos (by rw [hzero, mul_zero])]

include ha hb

theorem quotient_of_safe (hne : b.numerator ≠ 0) (hsafe : |a.power - b.power| ≤ Double.maxSafe) :
    ∃ value, quotient a b = .ok value ∧ value.toRat = a.toRat / b.toRat := by
  have hd : (a.denominator : ℤ) * b.numerator ≠ 0 :=
    mul_ne_zero (by exact_mod_cast a.positive.ne') hne
  have hexponent := (Double.isSafeInteger_sub ha.exponent.1 hb.exponent.1).mpr hsafe
  obtain ⟨value, hvalue, hparts⟩ := make_of_safe (a.numerator * b.denominator) hd hexponent
  have hpower : value.power = a.power - b.power := by
    rw [power, hparts.exponent, Double.toInt?_sub ha.exponent.1 hb.exponent.1
      (Double.natAbs_le_of_safe hsafe), Option.getD_some]
  refine ⟨value, hvalue, ?_⟩
  rw [toRat_eq_ratio_mul, hparts.ratio, hpower, zpow_sub₀ (by norm_num), toRat_eq_ratio_mul,
    toRat_eq_ratio_mul, ratio, ratio]
  push_cast
  field_simp

theorem quotient_of_not_safe (hne : b.numerator ≠ 0)
    (hnot : ¬ |a.power - b.power| ≤ Double.maxSafe) :
    ∃ text, quotient a b = .error (.range (.unsafeExponent text)) := by
  rw [← Double.isSafeInteger_sub ha.exponent.1 hb.exponent.1, Bool.not_eq_true] at hnot
  exact ⟨_, make_of_not_safe _ (mul_ne_zero (by exact_mod_cast a.positive.ne') hne) hnot⟩

end Quotient

/-- **Exact arithmetic.** A product is refused or exact just if its exponents do not drift. They do
not if they are steady, as any two of them are; steady factors have a product unless the sum of their
exponents is not safe, and the same one in every steady order. A quotient is always refused or exact,
and refused only for a zero divisor or an exponent that is not safe. -/
theorem product_exact_iff {factors : List Fraction}
    (hbuilt : ∀ factor ∈ factors, factor.Buildable) {a b : Fraction} (ha : a.Buildable)
    (hb : b.Buildable) :
    (RefusedOrExact (product factors) (factors.map toRat).prod ↔ ¬ Drifts factors)
      ∧ (Steady factors → ¬ Drifts factors
        ∧ ((∃ value, product factors = .ok value) ↔ |totalPower factors| ≤ Double.maxSafe)
        ∧ ∀ others : List Fraction, others.Perm factors → Steady others →
          product others = product factors)
      ∧ (factors.length ≤ 2 → Steady factors)
      ∧ ((factors.map fun factor => |factor.power|).sum ≤ 2 ^ 53 →
        ∀ others : List Fraction, others.Perm factors → Steady others)
      ∧ RefusedOrExact (quotient a b) (a.toRat / b.toRat)
      ∧ ((∃ value, quotient a b = .ok value)
        ↔ b.toRat ≠ 0 ∧ |a.power - b.power| ≤ Double.maxSafe) := by
  refine ⟨refusedOrExact_product_iff factors, fun hsteady => ⟨not_drifts_of_steady hbuilt hsteady,
    exists_product_iff hbuilt hsteady, fun others hperm => product_eq_of_perm hbuilt hperm hsteady⟩,
    steady_of_length_le hbuilt, fun hsum others => steady_of_sum_le hsum, ?_⟩
  rw [Ne, toRat_eq_zero_iff]
  by_cases hzero : b.numerator = 0
  · have hrefused := quotient_of_zero a hzero
    refine ⟨.inl ⟨_, hrefused⟩, iff_of_false ?_ fun h => h.1 hzero⟩
    rintro ⟨value, hvalue⟩
    rw [hrefused] at hvalue
    cases hvalue
  by_cases hsafe : |a.power - b.power| ≤ Double.maxSafe
  · obtain ⟨value, hvalue, hexact⟩ := quotient_of_safe ha hb hzero hsafe
    exact ⟨.inr ⟨value, hvalue, value.positive, hexact⟩,
      iff_of_true ⟨value, hvalue⟩ ⟨hzero, hsafe⟩⟩
  · obtain ⟨text, hrefused⟩ := quotient_of_not_safe ha hb hzero hsafe
    refine ⟨.inl ⟨_, hrefused⟩, iff_of_false ?_ fun h => hsafe h.2⟩
    rintro ⟨value, hvalue⟩
    rw [hrefused] at hvalue
    cases hvalue

/-! ### Two rows of factors -/

def quarters : Fraction := ⟨-3, 4, 5, by decide⟩

def halves : Fraction := ⟨7, 2, Double.ofInt (-9), by decide⟩

theorem quarters_exact :
    (∀ factor ∈ [quarters, halves, quarters], factor.Buildable)
      ∧ RefusedOrExact (product [quarters, halves, quarters])
        ([quarters, halves, quarters].map toRat).prod
      ∧ (∃ value, product [quarters, halves, quarters] = .ok value)
      ∧ RefusedOrExact (quotient quarters halves) (quarters.toRat / halves.toRat) := by
  have hquarters : quarters.Buildable := buildable_of_safe (by decide +kernel)
  have hhalves : halves.Buildable := buildable_of_safe (by decide +kernel)
  have hbuilt : ∀ factor ∈ [quarters, halves, quarters], factor.Buildable := by
    simp [hquarters, hhalves]
  have hsmall : ([quarters, halves, quarters].map fun factor => |factor.power|).sum ≤ 2 ^ 53 := by
    decide +kernel
  obtain ⟨hexact, hsteady, -, horders, hquotient, -⟩ := product_exact_iff hbuilt hquarters hhalves
  obtain ⟨hdrifts, hexists, -⟩ := hsteady (horders hsmall _ (List.Perm.refl _))
  exact ⟨hbuilt, hexact.mpr hdrifts, hexists.mpr (by decide +kernel), hquotient⟩

/-- A power of ten. -/
def tenTo (e : ℤ) : Fraction := ⟨1, 1, Double.ofInt e, Nat.one_pos⟩

/-- The partial sum `2 ^ 53 + 1` is rounded down, and the last exponent takes it back to one. -/
def drifting : List Fraction := [tenTo Double.maxSafe, tenTo 2, tenTo (-Double.maxSafe)]

theorem drifts_drifting : Drifts drifting where
  safe := by decide +kernel
  astray := by decide +kernel
  nonzero := by decide

theorem product_tenTo (i j k : ℤ) {e : ℤ}
    (hsum : exponentSum [tenTo i, tenTo j, tenTo k] = Double.ofInt e) (he : |e| ≤ Double.maxSafe) :
    product [tenTo i, tenTo j, tenTo k] = .ok (tenTo e) := by
  rw [product_eq_make, hsum]
  exact make_one 1 ((Double.isSafeInteger_ofInt e).mpr he)

/-- The product of `10 ^ (2 ^ 53 - 1)`, `10 ^ 2` and `10 ^ (1 - 2 ^ 53)` is ten, and a hundred if the
factors stand in another order. -/
theorem not_product_exact :
    product drifting = .ok (tenTo 1)
      ∧ product [tenTo Double.maxSafe, tenTo (-Double.maxSafe), tenTo 2] = .ok (tenTo 2)
      ∧ ¬ ∀ factors : List Fraction, (∀ factor ∈ factors, factor.Buildable) →
        RefusedOrExact (product factors) (factors.map toRat).prod := by
  refine ⟨product_tenTo _ _ _ (by decide +kernel) (by decide +kernel),
    product_tenTo _ _ _ (by decide +kernel) (by decide +kernel), fun hall => ?_⟩
  have hbuilt : ∀ factor ∈ drifting, factor.Buildable := by
    have hten : ∀ e : ℤ, |e| ≤ Double.maxSafe → (tenTo e).Buildable := by
      intro e he
      exact buildable_of_safe ((Double.isSafeInteger_ofInt e).mpr he)
    have hmax : |Double.maxSafe| ≤ Double.maxSafe := by decide +kernel
    simp only [drifting, List.mem_cons, List.not_mem_nil, or_false]
    rintro factor (rfl | rfl | rfl)
    · exact hten _ hmax
    · exact hten _ (by decide +kernel)
    · exact hten _ (by rwa [abs_neg])
  exact (refusedOrExact_product_iff drifting).mp (hall drifting hbuilt) drifts_drifting

end Fraction

end AngleSeries
