import AngleSeries.Proofs.Digits
import AngleSeries.Rounding
import Mathlib.Algebra.Order.Field.Power
import Mathlib.Data.Int.Log
import Mathlib.Data.Rat.Floor
import Mathlib.Data.Sign.Basic
import Mathlib.Tactic.FieldSimp
import Mathlib.Tactic.Linarith
import Mathlib.Tactic.NormNum
import Mathlib.Tactic.Positivity

/-!
# Rounding to significant digits

What rounding means is said on rational numbers, without digits: `nearestEven` is the nearest
integer with ties to the even neighbour, and `roundSignificant` applies it in units of the last of
`count` significant places, which the decimal logarithm finds. The integer arithmetic that carries
the rounding out computes exactly that.

Rounding commutes with powers of ten and leaves alone what it already rounded, so a quotient may be
rounded before its power of ten is applied.
-/

namespace AngleSeries

open Numeral

/-- The integer nearest to a rational number; a half goes to the even neighbour. -/
def nearestEven (q : ℚ) : ℤ :=
  if Int.fract q < 1 / 2 then ⌊q⌋
  else if 1 / 2 < Int.fract q then ⌊q⌋ + 1
  else ⌊q⌋ + ⌊q⌋ % 2

/-- The power of ten of the last of `count` significant digits. -/
def lastPlace (count : ℕ) (q : ℚ) : ℤ :=
  Int.log 10 |q| - (count - 1)

/-- A rational number to `count` significant decimal digits, halves to the even neighbour. -/
def roundSignificant (count : ℕ) (q : ℚ) : ℚ :=
  nearestEven (q / 10 ^ lastPlace count q) * 10 ^ lastPlace count q

/-! ### The nearest integer -/

@[simp]
theorem nearestEven_intCast (n : ℤ) : nearestEven n = n := by
  simp [nearestEven]

theorem floor_le_nearestEven (q : ℚ) : ⌊q⌋ ≤ nearestEven q := by
  unfold nearestEven
  split_ifs <;> omega

theorem nearestEven_le_floor_add_one (q : ℚ) : nearestEven q ≤ ⌊q⌋ + 1 := by
  unfold nearestEven
  split_ifs <;> omega

theorem le_nearestEven {n : ℤ} {q : ℚ} (hle : (n : ℚ) ≤ q) : n ≤ nearestEven q :=
  (Int.le_floor.mpr hle).trans (floor_le_nearestEven q)

theorem nearestEven_le {n : ℤ} {q : ℚ} (hle : q ≤ n) : nearestEven q ≤ n := by
  rcases hle.lt_or_eq with hlt | heq
  · exact (nearestEven_le_floor_add_one q).trans (Int.add_one_le_iff.mpr (Int.floor_lt.mpr hlt))
  · rw [heq, nearestEven_intCast]

/-- **Nearest.** The nearest integer is at most a half away, and at a half it is even. -/
theorem nearestEven_spec (q : ℚ) :
    |q - nearestEven q| ≤ 1 / 2 ∧ (|q - nearestEven q| = 1 / 2 → Even (nearestEven q)) := by
  have hfract : Int.fract q = q - ⌊q⌋ := rfl
  have hnonneg := Int.fract_nonneg q
  have hlt := Int.fract_lt_one q
  unfold nearestEven
  split_ifs with hlow hhigh
  · rw [← hfract, abs_of_nonneg hnonneg]
    exact ⟨hlow.le, fun heq => absurd heq hlow.ne⟩
  · have hdist : |q - ((⌊q⌋ + 1 : ℤ) : ℚ)| = 1 - Int.fract q := by
      rw [abs_sub_comm, abs_of_nonneg] <;> push_cast <;> linarith
    rw [hdist]
    exact ⟨by linarith, fun heq => absurd heq (by linarith)⟩
  · have hhalf : Int.fract q = 1 / 2 := le_antisymm (not_lt.mp hhigh) (not_lt.mp hlow)
    have heven : Even (⌊q⌋ + ⌊q⌋ % 2) := by
      rw [Int.even_iff]
      omega
    refine ⟨?_, fun _ => heven⟩
    rcases Int.emod_two_eq_zero_or_one ⌊q⌋ with hmod | hmod <;> rw [hmod, abs_le] <;> push_cast <;>
      constructor <;> linarith

theorem nearestEven_neg (q : ℚ) : nearestEven (-q) = -nearestEven q := by
  by_cases hzero : Int.fract q = 0
  · obtain ⟨n, hn⟩ := Int.fract_eq_zero_iff.mp hzero
    rw [← hn, ← Int.cast_neg, nearestEven_intCast, nearestEven_intCast]
  · have hfract : Int.fract (-q) = 1 - Int.fract q := Int.fract_neg hzero
    have hfloor : ⌊-q⌋ = -⌊q⌋ - 1 := by
      have hq : ((⌊-q⌋ : ℤ) : ℚ) = ((-⌊q⌋ - 1 : ℤ) : ℚ) := by
        rw [← Int.self_sub_fract (-q), hfract]
        push_cast
        rw [← Int.self_sub_fract q]
        ring
      exact_mod_cast hq
    unfold nearestEven
    rw [hfract, hfloor]
    split_ifs <;> first | omega | linarith

theorem nearestEven_natCast_div (n : ℕ) {d : ℕ} (hd : 0 < d) :
    nearestEven ((n : ℚ) / d) = roundHalfEven n d := by
  have hdq : (0 : ℚ) < d := by exact_mod_cast hd
  have hfloor : ⌊(n : ℚ) / d⌋ = ((n / d : ℕ) : ℤ) := by
    have := Rat.floor_intCast_div_natCast (n : ℤ) d
    push_cast at this ⊢
    exact this
  have hfract : Int.fract ((n : ℚ) / d) = ((n % d : ℕ) : ℚ) / d := by
    have hsplit : (n : ℚ) = d * (n / d : ℕ) + (n % d : ℕ) := by
      exact_mod_cast (Nat.div_add_mod n d).symm
    rw [Int.fract, hfloor, Int.cast_natCast, eq_div_iff hdq.ne', sub_mul, div_mul_cancel₀ _ hdq.ne']
    linarith
  have hlow : ((n % d : ℕ) : ℚ) / d < 1 / 2 ↔ 2 * (n % d) < d := by
    rw [div_lt_div_iff₀ hdq two_pos, ← Nat.cast_lt (α := ℚ)]
    push_cast
    constructor <;> intro h <;> linarith
  have hhigh : 1 / 2 < ((n % d : ℕ) : ℚ) / d ↔ d < 2 * (n % d) := by
    rw [div_lt_div_iff₀ two_pos hdq, ← Nat.cast_lt (α := ℚ)]
    push_cast
    constructor <;> intro h <;> linarith
  simp only [nearestEven, roundHalfEven, hfloor, hfract, hlow, hhigh]
  split_ifs <;> push_cast <;> rfl

/-! ### The decimal logarithm -/

theorem log_base_eq_iff {b : ℕ} (hb : 1 < b) {q : ℚ} (hq : 0 < q) {k : ℤ} :
    Int.log b q = k ↔ (b : ℚ) ^ k ≤ q ∧ q < (b : ℚ) ^ (k + 1) := by
  rw [Int.zpow_le_iff_le_log hb hq, Int.lt_zpow_iff_log_lt hb hq]
  omega

theorem log_eq_iff {q : ℚ} (hq : 0 < q) {k : ℤ} :
    Int.log 10 q = k ↔ 10 ^ k ≤ q ∧ q < 10 ^ (k + 1) := by
  exact_mod_cast log_base_eq_iff (b := 10) (by decide) hq

theorem zpow_log_le {q : ℚ} (hq : 0 < q) : (10 : ℚ) ^ Int.log 10 q ≤ q :=
  ((log_eq_iff hq).mp rfl).1

theorem lt_zpow_log_add_one {q : ℚ} (hq : 0 < q) : q < (10 : ℚ) ^ (Int.log 10 q + 1) :=
  ((log_eq_iff hq).mp rfl).2

theorem log_mul_zpow {q : ℚ} (hq : 0 < q) (m : ℤ) :
    Int.log 10 (q * 10 ^ m) = Int.log 10 q + m := by
  have hpow : (0 : ℚ) < 10 ^ m := by positivity
  rw [log_eq_iff (by positivity)]
  constructor
  · rw [zpow_add₀ (by norm_num)]
    exact mul_le_mul_of_nonneg_right (zpow_log_le hq) hpow.le
  · rw [add_right_comm, zpow_add₀ (by norm_num)]
    exact mul_lt_mul_of_pos_right (lt_zpow_log_add_one hq) hpow

theorem log_natCast {n : ℕ} : Int.log 10 (n : ℚ) = digitCount n - 1 := by
  rw [Int.log_natCast, digitCount_eq_log]
  push_cast
  ring

/-- The power of ten of a leading digit, counted from the last digit. -/
theorem log_natCast_mul_zpow {n : ℕ} (hn : n ≠ 0) (m : ℤ) :
    Int.log 10 ((n : ℚ) * 10 ^ m) = m + digitCount n - 1 := by
  rw [log_mul_zpow (by exact_mod_cast Nat.pos_of_ne_zero hn), log_natCast]
  ring

/-- Powers with the sign of the exponent split off, as integer arithmetic has them. -/
theorem pow_toNat_eq (k : ℤ) : (10 : ℚ) ^ k.toNat = 10 ^ k * 10 ^ (-k).toNat := by
  rcases le_total 0 k with hk | hk
  · rw [Int.toNat_of_nonpos (by omega : -k ≤ 0), pow_zero, mul_one, ← zpow_natCast,
      Int.toNat_of_nonneg hk]
  · rw [Int.toNat_of_nonpos hk, pow_zero, ← zpow_natCast _ (-k).toNat,
      Int.toNat_of_nonneg (by omega : 0 ≤ -k), ← zpow_add₀ (by norm_num), add_neg_cancel, zpow_zero]

theorem div_pow_toNat_eq (n d : ℕ) (k : ℤ) :
    ((n * 10 ^ (-k).toNat : ℕ) : ℚ) / (d * 10 ^ k.toNat : ℕ) = n / d / 10 ^ k := by
  have hpow : (10 : ℚ) ^ (-k).toNat ≠ 0 := by positivity
  push_cast
  rw [pow_toNat_eq k, ← mul_assoc, mul_div_mul_right _ _ hpow, div_div]

theorem leadingExponent_eq_log {n d : ℕ} (hn : n ≠ 0) (hd : d ≠ 0) :
    leadingExponent n d = Int.log 10 ((n : ℚ) / d) := by
  have hnq : (0 : ℚ) < n := by exact_mod_cast Nat.pos_of_ne_zero hn
  have hdq : (0 : ℚ) < d := by exact_mod_cast Nat.pos_of_ne_zero hd
  have hten : (1 : ℚ) < 10 := by norm_num
  have hnlog := (log_eq_iff hnq).mp log_natCast
  have hdlog := (log_eq_iff hdq).mp log_natCast
  set k : ℤ := (digitCount n : ℤ) - digitCount d with hk
  have hlow : (10 : ℚ) ^ (k - 1) ≤ n / d := by
    rw [le_div_iff₀ hdq]
    calc (10 : ℚ) ^ (k - 1) * d ≤ 10 ^ (k - 1) * 10 ^ ((digitCount d : ℤ) - 1 + 1) :=
          mul_le_mul_of_nonneg_left hdlog.2.le (by positivity)
      _ = 10 ^ ((digitCount n : ℤ) - 1) := by
          rw [← zpow_add₀ (by norm_num), hk]
          congr 1
          ring
      _ ≤ n := hnlog.1
  have hhigh : (n : ℚ) / d < 10 ^ (k + 1) := by
    rw [div_lt_iff₀ hdq]
    calc (n : ℚ) < 10 ^ ((digitCount n : ℤ) - 1 + 1) := hnlog.2
      _ = 10 ^ (k + 1) * 10 ^ ((digitCount d : ℤ) - 1) := by
          rw [← zpow_add₀ (by norm_num), hk]
          congr 1
          ring
      _ ≤ 10 ^ (k + 1) * d := mul_le_mul_of_nonneg_left hdlog.1 (by positivity)
  have hcompare : d * 10 ^ k.toNat ≤ n * 10 ^ (-k).toNat ↔ (10 : ℚ) ^ k ≤ n / d := by
    have hden : (0 : ℚ) < (d * 10 ^ k.toNat : ℕ) := by
      push_cast
      positivity
    have hpow : (0 : ℚ) < 10 ^ k := by positivity
    rw [← one_le_div₀ hpow, ← div_pow_toNat_eq, one_le_div₀ hden, Nat.cast_le]
  unfold leadingExponent
  simp only [← hk]
  symm
  split_ifs with hle
  · exact (log_eq_iff (by positivity)).mpr ⟨hcompare.mp hle, hhigh⟩
  · refine (log_eq_iff (by positivity)).mpr ⟨hlow, ?_⟩
    rw [sub_add_cancel]
    exact not_le.mp (mt hcompare.mpr hle)

/-- The logarithm of a quotient is the difference of the digit counts, or one less. -/
theorem log_div_bounds {n d : ℕ} (hn : n ≠ 0) (hd : d ≠ 0) :
    (digitCount n : ℤ) - digitCount d - 1 ≤ Int.log 10 ((n : ℚ) / d)
      ∧ Int.log 10 ((n : ℚ) / d) ≤ digitCount n - digitCount d := by
  rw [← leadingExponent_eq_log hn hd, leadingExponent]
  split_ifs <;> omega

/-! ### Significant digits -/

@[simp]
theorem roundSignificant_zero (count : ℕ) : roundSignificant count 0 = 0 := by
  simp [roundSignificant, nearestEven]

@[simp]
theorem roundSignificant_neg (count : ℕ) (q : ℚ) :
    roundSignificant count (-q) = -roundSignificant count q := by
  simp [roundSignificant, lastPlace, neg_div, nearestEven_neg]

theorem lastPlace_mul_zpow (count : ℕ) {q : ℚ} (hq : q ≠ 0) (m : ℤ) :
    lastPlace count (q * 10 ^ m) = lastPlace count q + m := by
  have hpow : |(10 : ℚ) ^ m| = 10 ^ m := abs_of_pos (by positivity)
  rw [lastPlace, lastPlace, abs_mul, hpow, log_mul_zpow (abs_pos.mpr hq)]
  ring

/-- A power of ten only moves the point. -/
theorem roundSignificant_mul_zpow (count : ℕ) (q : ℚ) (m : ℤ) :
    roundSignificant count (q * 10 ^ m) = roundSignificant count q * 10 ^ m := by
  by_cases hq : q = 0
  · simp [hq]
  · have hpow : (10 : ℚ) ^ m ≠ 0 := by positivity
    rw [roundSignificant, roundSignificant, lastPlace_mul_zpow count hq, zpow_add₀ (by norm_num),
      mul_div_mul_right _ _ hpow, mul_assoc]

/-- In units of its last place a number has exactly `count` digits before the point. -/
theorem pow_le_div_lastPlace {count : ℕ} {q : ℚ} (hq : 0 < q) :
    (10 : ℚ) ^ ((count : ℤ) - 1) ≤ q / 10 ^ lastPlace count q := by
  rw [le_div_iff₀ (by positivity), ← zpow_add₀ (by norm_num), lastPlace, abs_of_pos hq]
  ring_nf
  exact zpow_log_le hq

theorem div_lastPlace_lt {count : ℕ} {q : ℚ} (hq : 0 < q) :
    q / 10 ^ lastPlace count q < (10 : ℚ) ^ count := by
  rw [div_lt_iff₀ (by positivity), ← zpow_natCast, ← zpow_add₀ (by norm_num), lastPlace,
    abs_of_pos hq]
  refine (lt_zpow_log_add_one hq).trans_le (le_of_eq ?_)
  congr 1
  ring

theorem pow_le_nearestEven {count : ℕ} (hcount : count ≠ 0) {q : ℚ} (hq : 0 < q) :
    (10 : ℤ) ^ (count - 1) ≤ nearestEven (q / 10 ^ lastPlace count q) := by
  refine le_nearestEven (le_trans (le_of_eq ?_) (pow_le_div_lastPlace hq))
  push_cast
  rw [← zpow_natCast]
  congr 1
  omega

theorem nearestEven_le_pow (count : ℕ) {q : ℚ} (hq : 0 < q) :
    nearestEven (q / 10 ^ lastPlace count q) ≤ (10 : ℤ) ^ count := by
  refine nearestEven_le ?_
  push_cast
  exact (div_lastPlace_lt hq).le

theorem roundSignificant_pos {count : ℕ} (hcount : count ≠ 0) {q : ℚ} (hq : 0 < q) :
    0 < roundSignificant count q := by
  have hle := pow_le_nearestEven hcount hq
  have hpos : (0 : ℤ) < 10 ^ (count - 1) := by positivity
  have hcast : (0 : ℚ) < nearestEven (q / 10 ^ lastPlace count q) := by
    exact_mod_cast hpos.trans_le hle
  unfold roundSignificant
  positivity

/-- Rounding keeps the sign, and only zero becomes zero. -/
theorem sign_roundSignificant {count : ℕ} (hcount : count ≠ 0) (q : ℚ) :
    SignType.sign (roundSignificant count q) = SignType.sign q := by
  rcases lt_trichotomy q 0 with hneg | rfl | hpos
  · have hround := roundSignificant_pos hcount (neg_pos.mpr hneg)
    rw [roundSignificant_neg, neg_pos] at hround
    rw [sign_neg hneg, sign_neg hround]
  · simp
  · rw [sign_pos hpos, sign_pos (roundSignificant_pos hcount hpos)]

theorem roundSignificant_ne_zero {count : ℕ} (hcount : count ≠ 0) {q : ℚ} (hq : q ≠ 0) :
    roundSignificant count q ≠ 0 := by
  rw [← sign_ne_zero, sign_roundSignificant hcount]
  exact sign_ne_zero.mpr hq

theorem abs_roundSignificant {count : ℕ} (hcount : count ≠ 0) (q : ℚ) :
    |roundSignificant count q| = roundSignificant count |q| := by
  rcases lt_trichotomy q 0 with hneg | rfl | hpos
  · have hround := roundSignificant_pos hcount (neg_pos.mpr hneg)
    rw [abs_of_neg hneg, ← abs_of_pos hround, roundSignificant_neg, abs_neg]
  · simp
  · rw [abs_of_pos hpos, abs_of_pos (roundSignificant_pos hcount hpos)]

section Decade

variable {count : ℕ} (hcount : count ≠ 0) {q : ℚ} (hq : 0 < q)

include hcount hq

/-- Rounding does not leave the decade of a number downwards. -/
theorem zpow_log_le_roundSignificant :
    (10 : ℚ) ^ Int.log 10 q ≤ roundSignificant count q := by
  have hlast : lastPlace count q = Int.log 10 q - (count - 1) := by rw [lastPlace, abs_of_pos hq]
  calc (10 : ℚ) ^ Int.log 10 q = ((10 : ℤ) ^ (count - 1) : ℤ) * 10 ^ lastPlace count q := by
        push_cast
        rw [← zpow_natCast, ← zpow_add₀ (by norm_num), hlast]
        congr 1
        omega
    _ ≤ roundSignificant count q :=
        mul_le_mul_of_nonneg_right (by exact_mod_cast pow_le_nearestEven hcount hq) (by positivity)

omit hcount in
/-- Upwards it comes to the next power of ten at most. -/
theorem roundSignificant_le_zpow :
    roundSignificant count q ≤ (10 : ℚ) ^ (Int.log 10 q + 1) := by
  have hlast : lastPlace count q = Int.log 10 q - (count - 1) := by rw [lastPlace, abs_of_pos hq]
  calc roundSignificant count q ≤ ((10 : ℤ) ^ count : ℤ) * 10 ^ lastPlace count q :=
        mul_le_mul_of_nonneg_right (by exact_mod_cast nearestEven_le_pow count hq) (by positivity)
    _ = (10 : ℚ) ^ (Int.log 10 q + 1) := by
        push_cast
        rw [← zpow_natCast, ← zpow_add₀ (by norm_num), hlast]
        congr 1
        omega

/-- Rounding moves a number into the next decade at most. -/
theorem log_roundSignificant_bounds :
    Int.log 10 q ≤ Int.log 10 (roundSignificant count q)
      ∧ Int.log 10 (roundSignificant count q) ≤ Int.log 10 q + 1 := by
  have hround := roundSignificant_pos hcount hq
  have hten : (1 : ℚ) < 10 := by norm_num
  have hlogLow :=
    (zpow_log_le_roundSignificant hcount hq).trans_lt (lt_zpow_log_add_one hround)
  have hlogHigh := (zpow_log_le hround).trans (roundSignificant_le_zpow hq)
  rw [zpow_lt_zpow_iff_right₀ hten] at hlogLow
  rw [zpow_le_zpow_iff_right₀ hten] at hlogHigh
  omega

end Decade

/-- What fits into the digits is kept. -/
theorem roundSignificant_of_lt {count : ℕ} {n : ℕ} (hn : n < 10 ^ count) (m : ℤ) :
    roundSignificant count ((n : ℚ) * 10 ^ m) = n * 10 ^ m := by
  rw [roundSignificant_mul_zpow]
  congr 1
  by_cases hzero : n = 0
  · simp [hzero]
  have hcount : count ≠ 0 := by
    rintro rfl
    omega
  have hdigits := (digitCount_le_iff hcount).mpr hn
  -- The last place is not to the left of the point, so nothing is cut off.
  obtain ⟨k, hk⟩ : ∃ k : ℕ, lastPlace count (n : ℚ) = -(k : ℤ) := by
    refine ⟨count - digitCount n, ?_⟩
    rw [lastPlace, Nat.abs_cast, log_natCast]
    omega
  have hscaled : (n : ℚ) / 10 ^ (-(k : ℤ)) = ((n * 10 ^ k : ℤ) : ℚ) := by
    rw [zpow_neg, div_inv_eq_mul, zpow_natCast]
    push_cast
    rfl
  rw [roundSignificant, hk, hscaled, nearestEven_intCast, ← hscaled, div_mul_cancel₀]
  positivity

theorem roundSignificant_of_le {count : ℕ} (hcount : count ≠ 0) {n : ℕ} (hn : n ≤ 10 ^ count)
    (m : ℤ) : roundSignificant count ((n : ℚ) * 10 ^ m) = n * 10 ^ m := by
  rcases hn.lt_or_eq with hlt | rfl
  · exact roundSignificant_of_lt hlt m
  · have hone := roundSignificant_of_lt (n := 1) (Nat.one_lt_pow hcount (by decide)) (count + m)
    rw [Nat.cast_one, one_mul, zpow_add₀ (by norm_num), zpow_natCast] at hone
    push_cast
    exact hone

/-! ### Rounding by integer arithmetic -/

section Quotient

variable {n d : ℕ} (hn : n ≠ 0) (hd : d ≠ 0)

include hn hd

theorem div_pos_of_ne_zero : (0 : ℚ) < (n : ℚ) / d := by
  have hnq : (0 : ℚ) < n := by exact_mod_cast Nat.pos_of_ne_zero hn
  have hdq : (0 : ℚ) < d := by exact_mod_cast Nat.pos_of_ne_zero hd
  positivity

theorem roundToDigits_snd (count : ℕ) :
    (roundToDigits roundHalfEven count n d).2 = lastPlace count ((n : ℚ) / d) := by
  rw [lastPlace, abs_of_pos (div_pos_of_ne_zero hn hd), ← leadingExponent_eq_log hn hd]
  rfl

theorem roundToDigits_fst (count : ℕ) :
    ((roundToDigits roundHalfEven count n d).1 : ℤ)
      = nearestEven ((n : ℚ) / d / 10 ^ lastPlace count ((n : ℚ) / d)) := by
  rw [← roundToDigits_snd hn hd, ← div_pow_toNat_eq, nearestEven_natCast_div]
  · rfl
  · positivity

/-- **Integer arithmetic rounds correctly.** Coefficient and power of ten are those of the exact
quotient, rounded once. -/
theorem roundToDigits_value (count : ℕ) :
    ((roundToDigits roundHalfEven count n d).1 : ℚ)
      * 10 ^ (roundToDigits roundHalfEven count n d).2 = roundSignificant count ((n : ℚ) / d) := by
  have hfst := roundToDigits_fst hn hd count
  rw [roundSignificant, ← hfst, roundToDigits_snd hn hd, Int.cast_natCast]

theorem roundToDigits_ne_zero {count : ℕ} (hcount : count ≠ 0) :
    (roundToDigits roundHalfEven count n d).1 ≠ 0 := by
  have hle := pow_le_nearestEven hcount (div_pos_of_ne_zero hn hd)
  rw [← roundToDigits_fst hn hd] at hle
  have hpos : (0 : ℤ) < 10 ^ (count - 1) := by positivity
  omega

end Quotient

/-- Rounding twice is rounding once. -/
theorem roundSignificant_idem {count : ℕ} (hcount : count ≠ 0) (q : ℚ) :
    roundSignificant count (roundSignificant count q) = roundSignificant count q := by
  wlog hq : 0 < q generalizing q
  · rcases (not_lt.mp hq).lt_or_eq with hneg | rfl
    · have := this (-q) (neg_pos.mpr hneg)
      simpa using this
    · simp
  obtain ⟨n, hn⟩ : ∃ n : ℕ, nearestEven (q / 10 ^ lastPlace count q) = n := by
    have hle := pow_le_nearestEven hcount hq
    have hpos : (0 : ℤ) < 10 ^ (count - 1) := by positivity
    exact ⟨_, (Int.toNat_of_nonneg (hpos.trans_le hle).le).symm⟩
  -- A carry can make one digit too many, but then the digits are those of a power of ten.
  have hle := nearestEven_le_pow count hq
  rw [hn] at hle
  rw [show roundSignificant count q = (n : ℚ) * 10 ^ lastPlace count q by
    rw [roundSignificant, hn, Int.cast_natCast]]
  exact roundSignificant_of_le hcount (by exact_mod_cast hle) _

end AngleSeries
