import AngleSeries.Proofs.ExactValues
import AngleSeries.Proofs.RolledHashes
import Mathlib.Data.Nat.Digits.Defs

/-!
# Hashes written and read back

A hash is written with as many digits as its number has, and with zeros in front up to the width
that was asked for. In both directions nothing is lost: digits that are read and written again at
their own width are the same digits in lower case, and a number that is written at any width is read
back. The width is a binary64 number, of which the integer part counts; no text is longer than texts
can be.
-/

namespace AngleSeries

namespace Numeral

/-- The digits that numbers are written with. -/
def lowerDigits : List Char :=
  ['0', '1', '2', '3', '4', '5', '6', '7', '8', '9', 'a', 'b', 'c', 'd', 'e', 'f']

theorem digitChar_mem {d : ℕ} (hd : d < 16) : digitChar d ∈ lowerDigits := by
  interval_cases d <;> decide

variable {base : ℕ}

theorem ofDigits_concat (digits : List Char) (c : Char) :
    ofDigits base (digits ++ [c]) = ofDigits base digits * base + (digitValue? base c).getD 0 := by
  rw [ofDigits, List.foldl_append, List.foldl_cons, List.foldl_nil, ofDigits]

/-- Horner's rule gives every digit the weight of its place. -/
theorem ofDigits_eq (digits : List Char) :
    ofDigits base digits
      = Nat.ofDigits base (digits.reverse.map fun c => (digitValue? base c).getD 0) := by
  induction digits using List.reverseRecOn with
  | nil => rfl
  | append_singleton digits c ih =>
      rw [ofDigits_concat, ih, List.reverse_append, List.reverse_singleton, List.singleton_append,
        List.map_cons, Nat.ofDigits_cons, add_comm, mul_comm]

theorem digitValue?_lt {c : Char} {d : ℕ} (hc : digitValue? base c = some d) : d < base := by
  simp only [digitValue?, Option.ite_none_right_eq_some, Option.some_inj] at hc
  exact hc.2 ▸ hc.1

/-- A digit is written as it was read, but in lower case. -/
theorem digitChar_digitValue? {c : Char} {d : ℕ} (hc : digitValue? 16 c = some d) :
    digitChar d = c.toLower := by
  have hall : ∀ code < 103, ∀ d ∈ digitValue? 16 (Char.ofNat code),
      digitChar d = (Char.ofNat code).toLower := by decide +kernel
  have hcode := code_of_isDigit (by rw [isDigit, hc]; rfl)
  have hdigit := hall c.toNat (by omega) d
  rw [Char.ofNat_toNat] at hdigit
  exact hdigit hc

theorem length_toDigits (hbase : 2 ≤ base) (n : ℕ) :
    (toDigits base n).length = Nat.log base n + 1 := by
  induction n using Nat.strong_induction_on with
  | _ n ih =>
      by_cases hn : base ≤ n
      · rw [toDigits_of_le hbase hn, List.length_append, List.length_singleton,
          ih (n / base) (Nat.div_lt_self (by omega) (by omega)),
          Nat.log_of_one_lt_of_le (by omega) hn]
      · rw [toDigits_of_lt (not_le.mp hn), Nat.log_of_lt (not_le.mp hn)]
        rfl

end Numeral

namespace Hash

open Numeral

/-! ### Digits at their places -/

section Digits

variable {digits : List Char}

theorem ofDigits_lt_pow (digits : List Char) : ofDigits 16 digits < 16 ^ digits.length := by
  induction digits using List.reverseRecOn with
  | nil => decide
  | append_singleton digits c ih =>
      have hdigit : (digitValue? 16 c).getD 0 < 16 := by
        cases hc : digitValue? 16 c with
        | none => decide
        | some d => exact digitValue?_lt hc
      rw [ofDigits_concat, List.length_append, List.length_singleton, pow_succ]
      omega

/-- The places of a number that was read are the digits it was read from. -/
theorem placeDigits_ofDigits (hall : digits.all (isDigit 16) = true) :
    placeDigits digits.length (ofDigits 16 digits) = digits.map Char.toLower := by
  induction digits using List.reverseRecOn with
  | nil => rfl
  | append_singleton digits c ih =>
      rw [List.all_append, Bool.and_eq_true, List.all_cons, Bool.and_eq_true] at hall
      obtain ⟨d, hd⟩ := Option.isSome_iff_exists.mp hall.2.1
      have hlt : d < 16 := digitValue?_lt hd
      rw [ofDigits_concat, hd, Option.getD_some, List.length_append, List.length_singleton,
        placeDigits_succ, show (ofDigits 16 digits * 16 + d) / 16 = ofDigits 16 digits by omega,
        show (ofDigits 16 digits * 16 + d) % 16 = d by omega, ih hall.1, digitChar_digitValue? hd,
        List.map_append, List.map_singleton]

theorem write_ofDigits (hne : digits ≠ []) (hall : digits.all (isDigit 16) = true) :
    write (ofDigits 16 digits) digits.length = String.ofList (digits.map Char.toLower) := by
  rw [write_eq_placeDigits (List.length_pos_of_ne_nil hne) (ofDigits_lt_pow digits),
    placeDigits_ofDigits hall]

end Digits

/-! ### What is written -/

section Written

variable (value width : ℕ)

theorem length_pad (digits : List Char) : (pad width digits).length = max width digits.length := by
  rw [pad, List.length_append, List.length_replicate]
  omega

theorem length_write : (write value width).length = max width (Nat.log 16 value + 1) := by
  rw [write, String.length_ofList, length_pad, length_toDigits (by decide)]

/-- A width that is too small is the same as the width of the number. -/
theorem write_eq_placeDigits_max :
    write value width
      = String.ofList (placeDigits (max width (Nat.log 16 value + 1)) value) := by
  have hwide : write value width = write value (max width (Nat.log 16 value + 1)) := by
    have hzeros : max width (Nat.log 16 value + 1) - (Nat.log 16 value + 1)
        = width - (Nat.log 16 value + 1) := by omega
    rw [write, write, pad, pad, length_toDigits (by decide), hzeros]
  rw [hwide, write_eq_placeDigits (by omega)]
  calc value < 16 ^ (Nat.log 16 value + 1) := Nat.lt_pow_succ_log_self (by decide) value
    _ ≤ 16 ^ max width (Nat.log 16 value + 1) :=
        Nat.pow_le_pow_right (by decide) (le_max_right _ _)

theorem mem_lowerDigits_of_write {c : Char} (hc : c ∈ (write value width).toList) :
    c ∈ lowerDigits := by
  rw [write_eq_placeDigits_max, String.toList_ofList, placeDigits] at hc
  obtain ⟨place, -, rfl⟩ := List.mem_map.mp hc
  exact digitChar_mem (Nat.mod_lt _ (by decide))

end Written

/-! ### Widths -/

section Widths

variable {width : Double}

theorem digitsWanted_eq (hwidth : width.isFinite = true) :
    (digitsWanted width : ℤ) = max 1 ⌊width.toRat⌋ := by
  have hfloor := Double.floor?_eq hwidth
  cases width with
  | nan => cases hwidth
  | infinite negative => cases hwidth
  | finite negative units h =>
      simp only [digitsWanted, hfloor, Option.getD_some]
      omega

theorem digitsWanted_ofNat {n : ℕ} (hn : n ≤ 2 ^ 53) (hpos : 0 < n) :
    digitsWanted (Double.ofNat n) = n := by
  have hint : (Double.ofNat n).toInt? = some (n : ℤ) := Double.toInt?_ofNat hn
  have hwanted := digitsWanted_eq (Double.isFinite_of_toInt? hint)
  rw [Double.toRat_of_toInt? hint, Int.floor_intCast] at hwanted
  omega

theorem ofInt_of_le (value : ℕ) (hwidth : digitsWanted width ≤ Text.maxLength) :
    ofInt value width = .ok (write value (digitsWanted width)) := by
  have hvalue : requireNonNegative value = .ok () := if_neg (by omega)
  rw [ofInt, hvalue, Outcome.ok_bind, if_neg (not_lt.mpr hwidth), Int.toNat_natCast]

end Widths

/-! ### There and back -/

/-- The value of digits, each of which counts at its place. -/
def placeValue (digits : List Char) : ℕ :=
  Nat.ofDigits 16 (digits.reverse.map fun c => (digitValue? 16 c).getD 0)

theorem isHash_iff_spells {text : Text} : isHash text = true ↔ ∃! digits, Spells text.chars digits := by
  constructor
  · intro hvalid
    obtain ⟨digits, hspells, -⟩ := parse_eq_ok_iff.mp (parse_of_isHash hvalid)
    exact ⟨digits, hspells, fun other hother => hother.digits_eq.symm.trans hspells.digits_eq⟩
  · rintro ⟨digits, hspells, -⟩
    exact isHash_of_parse (parse_eq_ok_iff.mpr ⟨digits, hspells, rfl⟩)

/-- **Reading and writing are inverse.** A text is read, and said to be a hash, exactly if it spells
digits, which are then determined. It is read as their value, and written at their number they come
back in lower case. A number that is written at a width has as many digits as it needs, as many as the
integer part of the width if that is more, and is read back. -/
theorem read_write_inverse :
    (∀ text : Text,
      ((∃ value, parse text = .ok value) ↔ isHash text = true)
        ∧ (isHash text = true ↔ ∃! digits, Spells text.chars digits)
        ∧ ∀ digits, Spells text.chars digits →
          parse text = .ok (placeValue digits)
            ∧ (digits.length ≤ Text.maxLength →
              ofInt (placeValue digits) (Double.ofNat digits.length)
                = .ok (String.ofList (digits.map Char.toLower))))
      ∧ ∀ (value : ℕ) (width : Double), width.isFinite = true → ⌊width.toRat⌋ ≤ Text.maxLength →
        ∃ written, ofInt value width = .ok written
          ∧ (∀ c ∈ written.toList, c ∈ lowerDigits)
          ∧ (written.length : ℤ) = max (max 1 ⌊width.toRat⌋) (Nat.log 16 value + 1)
          ∧ parse written = .ok value ∧ isHash written = true := by
  refine ⟨fun text => ⟨⟨?_, ?_⟩, isHash_iff_spells, fun digits hspells => ?_⟩,
    fun value width hfinite hwidth => ?_⟩
  · rintro ⟨value, hparse⟩
    exact isHash_of_parse hparse
  · intro hvalid
    exact ⟨_, parse_of_isHash hvalid⟩
  · have hvalue : placeValue digits = ofDigits 16 digits := (ofDigits_eq digits).symm
    rw [hvalue]
    refine ⟨parse_eq_ok_iff.mpr ⟨digits, hspells, rfl⟩, fun hlength => ?_⟩
    have hmax : Text.maxLength ≤ 2 ^ 53 := by decide
    have hwanted : digitsWanted (Double.ofNat digits.length) = digits.length :=
      digitsWanted_ofNat (hlength.trans hmax) (List.length_pos_of_ne_nil hspells.nonempty)
    rw [ofInt_of_le _ (by rwa [hwanted]), hwanted,
      write_ofDigits hspells.nonempty hspells.hexadecimal]
  · have hwanted := digitsWanted_eq hfinite
    have hmax : (1 : ℤ) ≤ Text.maxLength := by decide
    have hparse := parse_write value (digitsWanted width)
    refine ⟨_, ofInt_of_le value (by omega), fun c => mem_lowerDigits_of_write value _, ?_, hparse,
      isHash_of_parse hparse⟩
    rw [length_write, Nat.cast_max, hwanted, Nat.cast_add, Nat.cast_one]

/-- Digits in both cases, with a zero in front of them, a mark and blanks. -/
def mixedText : Text := " 0X0aBC\n"

theorem mixedText_inverse :
    Spells mixedText.chars ['0', 'a', 'B', 'C'] ∧ isHash mixedText = true
      ∧ parse mixedText = .ok 2748 ∧ ofInt 2748 (Double.ofNat 4) = .ok "0abc"
      ∧ ∃ written, ofInt 2748 (Double.ofNat 5) = .ok written ∧ written.length = 5
        ∧ parse written = .ok 2748 := by
  have hspells : Spells mixedText.chars ['0', 'a', 'B', 'C'] := by
    refine ⟨⟨[' '], ['0', 'X'], ['\n'], by decide, by decide, by decide, by decide⟩, by decide,
      by decide⟩
  obtain ⟨htexts, hnumbers⟩ := read_write_inverse
  obtain ⟨hread, hspelled, hback⟩ := htexts mixedText
  obtain ⟨hparse, hwrite⟩ := hback _ hspells
  have hfive : (Double.ofNat 5).toInt? = some ((5 : ℕ) : ℤ) := Double.toInt?_ofNat (by decide)
  have hfloor : ⌊(Double.ofNat 5).toRat⌋ = 5 := by
    rw [Double.toRat_of_toInt? hfive, Int.floor_intCast]
    rfl
  obtain ⟨written, hwritten, -, hlength, hagain, -⟩ :=
    hnumbers 2748 (Double.ofNat 5) (Double.isFinite_of_toInt? hfive) (by rw [hfloor]; decide)
  refine ⟨hspells, hread.mp ⟨_, hparse⟩, hparse, hwrite (by decide), written, hwritten, ?_, hagain⟩
  have hlog : Nat.log 16 2748 = 2 := by decide
  rw [hfloor, hlog] at hlength
  omega

end Hash

end AngleSeries
