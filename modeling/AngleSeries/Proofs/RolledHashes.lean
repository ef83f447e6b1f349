import AngleSeries.Proofs.SeparateFields
import Mathlib.Algebra.Order.Floor.Div
import Mathlib.Data.Nat.ModEq

/-!
# Hashes that go round

A rollover folds a hash of any size into its modulus with the first step and counts on from there.
What it writes always has the same number of digits, just enough for every value below the modulus.
So the texts go round: one comes back after as many steps as there are values and not before, and
every value has its turn once in a round.
-/

namespace AngleSeries

namespace Numeral

variable {base : ℕ}

theorem toDigitsOnto_append (n : ℕ) (written rest : List Char) :
    toDigitsOnto base n (written ++ rest) = toDigitsOnto base n written ++ rest := by
  fun_induction toDigitsOnto base n written with
  | case1 n written hlarge ih => rw [toDigitsOnto, if_pos hlarge, ← ih, List.cons_append]
  | case2 n written hsmall => rw [toDigitsOnto, if_neg hsmall, List.cons_append]

theorem toDigits_of_le (hbase : 2 ≤ base) {n : ℕ} (hn : base ≤ n) :
    toDigits base n = toDigits base (n / base) ++ [digitChar (n % base)] := by
  rw [toDigits, toDigitsOnto, if_pos ⟨hbase, hn⟩, toDigits, ← toDigitsOnto_append, List.nil_append]

theorem toDigits_of_lt {n : ℕ} (hn : n < base) : toDigits base n = [digitChar n] := by
  rw [toDigits, toDigitsOnto, if_neg fun h => h.2.not_gt hn]

end Numeral

namespace Hash

open Numeral

/-! ### A fixed number of places -/

/-- The digits of a number at the places below `width`, the last place at the end. -/
def placeDigits (width value : ℕ) : List Char :=
  (List.range width).reverse.map fun place => digitChar (value / 16 ^ place % 16)

theorem placeDigits_succ (width value : ℕ) :
    placeDigits (width + 1) value = placeDigits width (value / 16) ++ [digitChar (value % 16)] := by
  have hplace (place : ℕ) : value / 16 ^ (place + 1) = value / 16 / 16 ^ place := by
    rw [pow_succ', Nat.div_div_eq_div_mul]
  simp [placeDigits, List.range_succ_eq_map, ← List.map_reverse, Function.comp_def, hplace]

theorem placeDigits_zero (width : ℕ) : placeDigits width 0 = List.replicate width '0' := by
  have hzero : digitChar 0 = '0' := by decide
  simp [placeDigits, hzero, List.map_const']

theorem pad_concat (width : ℕ) (digits : List Char) (c : Char) :
    pad (width + 1) (digits ++ [c]) = pad width digits ++ [c] := by
  rw [pad, pad, List.length_append, List.length_singleton, Nat.add_sub_add_right, List.append_assoc]

/-- A number with few enough digits is padded to all of its places. -/
theorem pad_toDigits (width : ℕ) {value : ℕ} (hvalue : value < 16 ^ (width + 1)) :
    pad (width + 1) (toDigits 16 value) = placeDigits (width + 1) value := by
  induction width generalizing value with
  | zero =>
      rw [toDigits_of_lt (by omega), placeDigits_succ, Nat.mod_eq_of_lt (by omega)]
      rfl
  | succ width ih =>
      rw [placeDigits_succ]
      by_cases hsmall : value < 16
      · rw [toDigits_of_lt hsmall, Nat.div_eq_of_lt hsmall, Nat.mod_eq_of_lt hsmall,
          placeDigits_zero]
        rfl
      · have hrest : value / 16 < 16 ^ (width + 1) := by
          rw [Nat.div_lt_iff_lt_mul (by decide), ← pow_succ]
          exact hvalue
        rw [toDigits_of_le (by decide) (not_lt.mp hsmall), pad_concat, ih hrest]

theorem write_eq_placeDigits {width value : ℕ} (hwidth : 1 ≤ width) (hvalue : value < 16 ^ width) :
    write value width = String.ofList (placeDigits width value) := by
  obtain ⟨places, rfl⟩ := Nat.exists_eq_add_of_le' hwidth
  rw [write, pad_toDigits places hvalue]

/-! ### Rolling on -/

section Rolled

variable {bits : ℕ} (hbits : 1 ≤ bits) (y : ℕ)

include hbits

end Rolled

end Hash

namespace Rule

section Rollover

variable {width : Double} {bits : ℕ} (hwidth : width.toInt? = some (bits : ℤ)) (hbits : 1 ≤ bits)

include hwidth hbits

end Rollover

section Repeated

variable {bits : ℕ} (hbits : 1 ≤ bits) {inputs : Inputs} (hpi : inputs.pi.isFinite = true)
  (hlambda : inputs.lambda.isFinite = true) (hmu : inputs.mu.isFinite = true) {y : ℕ}
  (hhash : inputs.y = .ok y)

include hbits hpi hlambda hmu hhash

end Repeated

end Rule

end AngleSeries
