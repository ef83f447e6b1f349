import AngleSeries.Proofs.WholeDoubles

/-!
# Whole numbers beyond `2 ^ 53`

From `2 ^ 53` to `2 ^ 54` only every second integer is a binary64 number. An odd one lies halfway
between its neighbours, and of these the multiple of four is the even one, so a sum that reaches
this range becomes an even number next to it. Below `2 ^ 53` nothing happens.
-/

namespace AngleSeries

namespace Double

/-- The binary64 number next to an integer of at most `2 ^ 54` in magnitude, as an integer. -/
def nearWhole (i : ℤ) : ℤ :=
  if i.natAbs ≤ 2 ^ 53 ∨ i % 2 = 0 then i else if i % 4 = 1 then i - 1 else i + 1

/-- The same for a magnitude. -/
def nearMagnitude (m : ℕ) : ℕ :=
  if m ≤ 2 ^ 53 ∨ m % 2 = 0 then m else if m % 4 = 1 then m - 1 else m + 1

theorem nearWhole_eq (i : ℤ) :
    nearWhole i = if i < 0 then -(nearMagnitude i.natAbs : ℤ) else nearMagnitude i.natAbs := by
  simp only [nearWhole, nearMagnitude]
  split_ifs <;> omega

/-- Even magnitudes lose no digit. -/
theorem representable_even {m : ℕ} (hm : m ≤ 2 ^ 54) (heven : m % 2 = 0) :
    Representable (m * unitsPerOne) := by
  obtain ⟨k, rfl⟩ : ∃ k, m = k * 2 := ⟨m / 2, by omega⟩
  rw [unitsPerOne, mul_assoc, ← pow_succ']
  exact representable_scaled (by omega) (by decide)

/-- An odd magnitude lies halfway between two numbers. -/
theorem roundUnits_odd {m : ℕ} (hlow : 2 ^ 53 < m) (hhigh : m < 2 ^ 54) (hodd : m % 2 = 1) :
    roundUnits (m * unitsPerOne) 1 = nearMagnitude m * unitsPerOne := by
  have hone := unitsPerOne_pos
  have hlog : (m * unitsPerOne).log2 = 53 + oneBits := by
    have hm : m.log2 = 53 := (Nat.log2_eq_iff (by omega)).mpr ⟨hlow.le, hhigh⟩
    rw [unitsPerOne, log2_mul_pow (by omega), hm]
  have hstep : 2 ^ (53 + oneBits - 52) = 2 * unitsPerOne := by
    rw [show 53 + oneBits - 52 = oneBits + 1 by omega, pow_succ', unitsPerOne]
  have hquotient : m * unitsPerOne / (2 * unitsPerOne) = m / 2 :=
    Nat.mul_div_mul_right _ _ hone
  have hrest : m * unitsPerOne % (2 * unitsPerOne) = unitsPerOne := by
    rw [Nat.mul_mod_mul_right, hodd, one_mul]
  rw [roundUnits, Nat.div_one, hlog, hstep, one_mul, roundHalfEven]
  simp only [hquotient, hrest, lt_irrefl, if_false]
  have hnear : (m / 2 + m / 2 % 2) * 2 = nearMagnitude m := by
    rw [nearMagnitude, if_neg (by omega)]
    split_ifs <;> omega
  rw [← mul_assoc, hnear]

/-- Up to `2 ^ 54` a magnitude is rounded to its neighbour. -/
theorem roundUnits_whole {m : ℕ} (hm : m ≤ 2 ^ 54) :
    roundUnits (m * unitsPerOne) 1 = nearMagnitude m * unitsPerOne
      ∧ Representable (nearMagnitude m * unitsPerOne) := by
  by_cases hexact : m ≤ 2 ^ 53 ∨ m % 2 = 0
  · have hrep : Representable (m * unitsPerOne) := by
      rcases hexact with hsmall | heven
      · exact representable_whole hsmall
      · exact representable_even hm heven
    rw [nearMagnitude, if_pos hexact]
    exact ⟨roundUnits_of_representable hrep, hrep⟩
  · rw [not_or, not_le] at hexact
    refine ⟨roundUnits_odd hexact.1 (by omega) (by omega), ?_⟩
    rw [nearMagnitude, if_neg (by omega)]
    split_ifs
    · exact representable_even (by omega) (by omega)
    · exact representable_even (by omega) (by omega)

/-- **The nearest number of an integer** of at most `2 ^ 54` in magnitude. -/
theorem toInt?_ofInt_near {i : ℤ} (hi : i.natAbs ≤ 2 ^ 54) :
    (ofInt i).toInt? = some (nearWhole i) := by
  obtain ⟨hround, hrep⟩ := roundUnits_whole hi
  rw [ofInt, ofQuotient, hround, ofUnits, dif_pos hrep, nearWhole_eq]
  simp only [toInt?, Nat.mul_mod_left, if_true, Nat.mul_div_cancel _ unitsPerOne_pos,
    decide_eq_true_eq]

theorem toInt?_add_near {x y : Double} {i j : ℤ} (hx : x.toInt? = some i) (hy : y.toInt? = some j)
    (hle : (i + j).natAbs ≤ 2 ^ 54) : (x + y).toInt? = some (nearWhole (i + j)) := by
  by_cases hzero : i + j = 0
  · obtain ⟨negative, hsum⟩ := add_eq_zero hx hy hzero
    rw [hsum, hzero, toInt?_signedZero]
    rfl
  · rw [add_eq_ofInt hx hy hzero, toInt?_ofInt_near hle]

/-- Numbers that are integers are compared as integers. -/
theorem lt_iff_of_toInt? {x y : Double} {i j : ℤ} (hx : x.toInt? = some i)
    (hy : y.toInt? = some j) : x.lt y = true ↔ i < j := by
  obtain ⟨a, m, hm, rfl, hmi⟩ := exists_of_toInt? hx
  obtain ⟨b, n, hn, rfl, hnj⟩ := exists_of_toInt? hy
  have hone : (0 : ℤ) < unitsPerOne := by exact_mod_cast unitsPerOne_pos
  rw [lt, decide_eq_true_iff, hmi, hnj, mul_lt_mul_iff_left₀ hone]

end Double

end AngleSeries
