import AngleSeries.Proofs.FractionOrder
import AngleSeries.Proofs.FractionProducts

/-!
# The digits of cross products

Magnitudes of close sizes are compared through their cross products, one of which takes the power
of ten between the exponents. Close sizes tie the exponents to the digits: what one exponent is
ahead, the numbers themselves have to be behind, up to one place. So the power of ten is paid for by
digits that are there anyway, and no cross product is longer than the longer pair of numbers by more
than one digit. How large the exponents are does not matter.
-/

namespace AngleSeries

namespace Numeral

theorem digitCount_mul_pow_le (n k : ℕ) : digitCount (n * 10 ^ k) ≤ digitCount n + k := by
  have hpositive := digitCount_pos n
  rw [digitCount_le_iff (by omega), pow_add]
  exact Nat.mul_lt_mul_of_pos_right (lt_pow_digitCount n) (Nat.pow_pos (by decide))

end Numeral

namespace Fraction

open Numeral

/-- A fraction that can be kept, with its power of ten in the range of decimals. -/
structure Limited (value : Fraction) : Prop where
  storable : value.Storable
  power : |value.power| ≤ exponentLimit

/-- The digits of two numbers that are multiplied crosswise. -/
def crossDigits (a b : Fraction) : ℕ :=
  digitCount a.numerator.natAbs + digitCount b.denominator

theorem Limited.exponent {value : Fraction} (hvalue : value.Limited) :
    value.exponent.toInt? = some value.power :=
  (buildable_of_safe hvalue.storable.exponent).exponent.1

/-- A size of limited parts and the next one are binary64 numbers. -/
theorem Limited.natAbs_size_lt {value : Fraction} (hvalue : value.Limited) :
    value.size.natAbs < 2 ^ 53 := by
  have hn : digitCount value.numerator.natAbs < 10 ^ 12 := hvalue.storable.numerator
  have hd : digitCount value.denominator < 10 ^ 12 := hvalue.storable.denominator
  have hpower := abs_le.mp hvalue.power
  have hlimit : exponentLimit = 9000000000000000 := rfl
  have hsize : value.size
      = (digitCount value.numerator.natAbs : ℤ) - digitCount value.denominator + value.power := rfl
  rw [hlimit] at hpower
  omega

theorem size_sub_size (a b : Fraction) :
    a.size - b.size = (crossDigits a b : ℤ) - crossDigits b a + (a.power - b.power) := by
  rw [size, size, crossDigits, crossDigits, power, power]
  push_cast
  ring

/-! ### Close sizes -/

section Pair

variable {a b : Fraction} (ha : a.Limited) (hb : b.Limited)

include ha hb

/-- Sizes of limited parts are compared exactly. -/
theorem spread_lt_iff_size : (a.spread + 1).lt b.spread = true ↔ a.size + 1 < b.size := by
  have haSize := ha.natAbs_size_lt
  have hbSize := hb.natAbs_size_lt
  rw [spread_lt_iff ha.storable.sized hb.storable.sized, FarBelow]
  simp only [Double.nearWhole]
  split_ifs <;> omega

variable (hab : (a.spread + 1).lt b.spread = false) (hba : (b.spread + 1).lt a.spread = false)

include hab hba

theorem natAbs_size_sub_le : (a.size - b.size).natAbs ≤ 1 := by
  have hbelow := mt (spread_lt_iff_size ha hb).mpr (Bool.not_eq_true _ ▸ hab)
  have habove := mt (spread_lt_iff_size hb ha).mpr (Bool.not_eq_true _ ▸ hba)
  omega

/-- What one exponent is ahead, the digits are behind, up to one place. -/
theorem power_sub_bounds :
    a.power - b.power ≤ (crossDigits b a : ℤ) - crossDigits a b + 1
      ∧ b.power - a.power ≤ (crossDigits a b : ℤ) - crossDigits b a + 1 := by
  have hclose := natAbs_size_sub_le ha hb hab hba
  have hsizes := size_sub_size a b
  omega

theorem gap_eq_power_sub : gap a b = .ok (a.power - b.power) := by
  have hclose := natAbs_size_sub_le ha hb hab hba
  exact gap_eq ha.storable.sized hb.storable.sized ha.exponent hb.exponent (by omega)

end Pair

/-! ### Lengths -/

theorem digitCount_crossProducts_fst (a b : Fraction) (gap : ℤ) :
    digitCount (crossProducts a b gap).1 ≤ crossDigits a b + gap.toNat :=
  (digitCount_mul_pow_le _ _).trans (Nat.add_le_add_right (digitCount_mul_le _ _) _)

theorem digitCount_crossProducts_snd (a b : Fraction) (gap : ℤ) :
    digitCount (crossProducts a b gap).2 ≤ crossDigits b a + (-gap).toNat :=
  (digitCount_mul_pow_le _ _).trans (Nat.add_le_add_right (digitCount_mul_le _ _) _)

/-- **No power of ten is longer than the numbers.** If the sizes do not decide, the verdict is that
on two cross products, the power of ten between the exponents has fewer zeros than the longer pair
of numbers has digits, and neither product is longer than that pair by more than one digit. -/
theorem crossProducts_within_digits {a b : Fraction} (ha : a.Limited) (hb : b.Limited)
    (hab : (a.spread + 1).lt b.spread = false) (hba : (b.spread + 1).lt a.spread = false) :
    gap a b = .ok (a.power - b.power)
      ∧ compareMagnitudes a b = .ok (compare (crossProducts a b (a.power - b.power)).1
        (crossProducts a b (a.power - b.power)).2)
      ∧ |a.power - b.power| < max (crossDigits a b) (crossDigits b a)
      ∧ digitCount (crossProducts a b (a.power - b.power)).1
        ≤ max (crossDigits a b) (crossDigits b a) + 1
      ∧ digitCount (crossProducts a b (a.power - b.power)).2
        ≤ max (crossDigits a b) (crossDigits b a) + 1 := by
  have hgap := gap_eq_power_sub ha hb hab hba
  obtain ⟨hahead, hbehind⟩ := power_sub_bounds ha hb hab hba
  have hleft := digitCount_crossProducts_fst a b (a.power - b.power)
  have hright := digitCount_crossProducts_snd a b (a.power - b.power)
  -- each of the four numbers has a digit, so a pair of them has two
  have habDigits : 2 ≤ crossDigits a b :=
    Nat.add_le_add (digitCount_pos _) (digitCount_pos _)
  have hbaDigits : 2 ≤ crossDigits b a :=
    Nat.add_le_add (digitCount_pos _) (digitCount_pos _)
  refine ⟨hgap, ?_, ?_, ?_, ?_⟩
  · rw [compareMagnitudes, hab, hba, hgap]
    rfl
  · rw [abs_lt]
    omega
  · omega
  · omega

/-- A number of six digits, an order below that of `tenTo 1000000000`. -/
def seventh : Fraction := ⟨-142857, 1, Double.ofInt 999999994, Nat.one_pos⟩

/-- Six zeros between exponents of a thousand million, against seven digits: one less than the bound. -/
theorem seventh_within_digits :
    (tenTo 1000000000).Limited ∧ seventh.Limited
      ∧ ((tenTo 1000000000).spread + 1).lt seventh.spread = false
      ∧ (seventh.spread + 1).lt (tenTo 1000000000).spread = false
      ∧ gap (tenTo 1000000000) seventh = .ok 6
      ∧ |(tenTo 1000000000).power - seventh.power|
        < max (crossDigits (tenTo 1000000000) seventh) (crossDigits seventh (tenTo 1000000000))
      ∧ max (crossDigits (tenTo 1000000000) seventh) (crossDigits seventh (tenTo 1000000000)) = 7 := by
  have ha : (tenTo 1000000000).Limited :=
    ⟨⟨by decide +kernel, by decide +kernel, by decide +kernel⟩, by decide +kernel⟩
  have hb : seventh.Limited :=
    ⟨⟨by decide +kernel, by decide +kernel, by decide +kernel⟩, by decide +kernel⟩
  have hab : ((tenTo 1000000000).spread + 1).lt seventh.spread = false := by decide +kernel
  have hba : (seventh.spread + 1).lt (tenTo 1000000000).spread = false := by decide +kernel
  have hpowers : (tenTo 1000000000).power - seventh.power = 6 := by decide +kernel
  obtain ⟨hgap, -, hlt, -⟩ := crossProducts_within_digits ha hb hab hba
  exact ⟨ha, hb, hab, hba, by rw [hgap, hpowers], hlt, by decide +kernel⟩

end Fraction

end AngleSeries
