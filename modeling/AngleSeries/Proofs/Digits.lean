import AngleSeries.Numeral
import Mathlib.Data.Nat.Log
import Mathlib.Tactic.Ring

/-!
# Counting decimal digits

The number of digits of a natural number is its logarithm plus one, so digit counts inherit the laws
of logarithms: a factor of ten adds one digit, a product has at most as many digits as its factors
together. Stripping trailing zeros moves exactly the removed powers of ten into the exponent.
-/

namespace AngleSeries.Numeral

theorem digitCount_eq_log (n : Nat) : digitCount n = Nat.log 10 n + 1 := by
  induction n using Nat.strong_induction_on with
  | _ n ih =>
      rw [digitCount]
      by_cases hten : 10 ≤ n
      · rw [if_pos hten, ih (n / 10) (by omega), Nat.log_of_one_lt_of_le (by decide) hten]
      · rw [if_neg hten, Nat.log_of_lt (by omega)]

theorem digitCount_pos (n : Nat) : 0 < digitCount n := by
  rw [digitCount_eq_log]
  exact Nat.succ_pos _

theorem lt_pow_digitCount (n : Nat) : n < 10 ^ digitCount n := by
  rw [digitCount_eq_log]
  exact Nat.lt_pow_succ_log_self (by decide) n

/-- A number has at most `count` digits exactly when it is below the power of ten. -/
theorem digitCount_le_iff {n count : Nat} (hcount : count ≠ 0) :
    digitCount n ≤ count ↔ n < 10 ^ count := by
  rw [digitCount_eq_log, Nat.add_one_le_iff]
  constructor
  · intro hlog
    exact Nat.lt_pow_of_log_lt (by decide) hlog
  · intro hlt
    exact Nat.log_lt_of_lt_pow' hcount hlt

theorem digitCount_mul_le (m n : Nat) : digitCount (m * n) ≤ digitCount m + digitCount n := by
  rw [digitCount_le_iff (by have := digitCount_pos m; omega), pow_add]
  exact Nat.mul_lt_mul'' (lt_pow_digitCount m) (lt_pow_digitCount n)

/-- What stripping removes is a power of ten, and nothing more can be removed. -/
theorem stripZeros_spec {coefficient : Nat} (hne : coefficient ≠ 0) (exponent : Int) :
    ∃ k : Nat, coefficient = (stripZeros coefficient exponent).1 * 10 ^ k
      ∧ (stripZeros coefficient exponent).2 = exponent + k
      ∧ (stripZeros coefficient exponent).1 % 10 ≠ 0 := by
  induction coefficient using Nat.strong_induction_on generalizing exponent with
  | _ coefficient ih =>
      rw [stripZeros, if_neg hne]
      by_cases hzero : coefficient % 10 = 0
      · rw [if_pos hzero]
        obtain ⟨k, hvalue, hexponent, hlast⟩ :=
          ih (coefficient / 10) (by omega) (by omega) (exponent + 1)
        refine ⟨k + 1, ?_, ?_, hlast⟩
        · rw [pow_succ, ← mul_assoc, ← hvalue]
          omega
        · rw [hexponent]
          push_cast
          ring
      · rw [if_neg hzero]
        exact ⟨0, by simp, by simp, hzero⟩

/-- A coefficient without trailing zeros and its power of ten are determined by their product. -/
theorem coefficient_unique {m n : Nat} {k : Nat} (hm : m % 10 ≠ 0) (heq : m = n * 10 ^ k) :
    k = 0 := by
  cases k with
  | zero => rfl
  | succ k =>
      rw [pow_succ, ← mul_assoc] at heq
      omega

end AngleSeries.Numeral
