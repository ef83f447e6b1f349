import AngleSeries.Hash
import AngleSeries.Proofs.Trimming
import Mathlib.Tactic.IntervalCases

/-!
# Hash texts as numbers

A text is a hash if it spells digits: with blanks around them, and with one mark in front at most. A
number that is written as a hash is read back from it, whatever the width. Reading is blind to the
case of letters and to zeros in front, so two hashes that differ in nothing else are one number.
-/

namespace AngleSeries

namespace Numeral

variable {base : ℕ}

theorem digitValue?_digitChar {d : ℕ} (hbase : base ≤ 16) (hd : d < base) :
    digitValue? base (digitChar d) = some d := by
  have hd16 : d < 16 := hd.trans_le hbase
  have hcode : (digitChar d).toNat = if d < 10 then 48 + d else 87 + d := by
    interval_cases d <;> decide
  rw [digitValue?, hcode]
  split_ifs <;> grind

theorem isDigit_digitChar {d : ℕ} (hbase : base ≤ 16) (hd : d < base) :
    isDigit base (digitChar d) = true := by
  rw [isDigit, digitValue?_digitChar hbase hd]
  rfl

/-- Horner's rule takes the digits of a number back to it. -/
theorem ofDigits_toDigitsOnto (hlow : 2 ≤ base) (hbase : base ≤ 16) (n : ℕ) (written : List Char) :
    ofDigits base (toDigitsOnto base n written)
      = written.foldl (fun value c => value * base + (digitValue? base c).getD 0) n := by
  fun_induction toDigitsOnto base n written with
  | case1 n written hlarge ih =>
      have hdigit : n % base < base := Nat.mod_lt _ (by omega)
      rw [ih, List.foldl_cons, digitValue?_digitChar hbase hdigit, Option.getD_some,
        Nat.div_add_mod']
  | case2 n written hsmall =>
      have hdigit : n < base := by omega
      rw [ofDigits, List.foldl_cons, digitValue?_digitChar hbase hdigit, Option.getD_some,
        zero_mul, zero_add]

theorem ofDigits_toDigits (hlow : 2 ≤ base) (hbase : base ≤ 16) (n : ℕ) :
    ofDigits base (toDigits base n) = n := by
  rw [toDigits, ofDigits_toDigitsOnto hlow hbase, List.foldl_nil]

theorem all_toDigitsOnto (hlow : 2 ≤ base) (hbase : base ≤ 16) (n : ℕ) (written : List Char)
    (hwritten : written.all (isDigit base) = true) :
    (toDigitsOnto base n written).all (isDigit base) = true
      ∧ toDigitsOnto base n written ≠ [] := by
  fun_induction toDigitsOnto base n written with
  | case1 n written hlarge ih =>
      refine ih ?_
      rw [List.all_cons, isDigit_digitChar hbase (Nat.mod_lt _ (by omega)), hwritten]
      rfl
  | case2 n written hsmall =>
      refine ⟨?_, List.cons_ne_nil _ _⟩
      rw [List.all_cons, isDigit_digitChar hbase (by omega), hwritten]
      rfl

/-- Zeros in front count for nothing. -/
theorem ofDigits_zero_cons (digits : List Char) :
    ofDigits base ('0' :: digits) = ofDigits base digits := by
  have hzero : (digitValue? base '0').getD 0 = 0 := by
    by_cases hbase : 0 < base <;> simp [digitValue?, hbase]
  rw [ofDigits, List.foldl_cons, hzero, zero_mul, zero_add, ofDigits]

theorem ofDigits_replicate_append (count : ℕ) (digits : List Char) :
    ofDigits base (List.replicate count '0' ++ digits) = ofDigits base digits := by
  induction count with
  | zero => rfl
  | succ count ih =>
      rw [List.replicate_succ, List.cons_append, ofDigits_zero_cons, ih]

theorem ofDigits_dropWhile (digits : List Char) :
    ofDigits 16 (digits.dropWhile (· == '0')) = ofDigits 16 digits := by
  induction digits with
  | nil => rfl
  | cons c digits ih =>
      by_cases hc : c = '0'
      · subst hc
        rw [ofDigits_zero_cons, ← ih]
        rfl
      · rw [List.dropWhile_cons_of_neg (by simpa using hc)]

/-- The case of a letter does not matter. -/
theorem digitValue?_toLower (c : Char) : digitValue? 16 c.toLower = digitValue? 16 c := by
  have hcode : c.toLower.toNat = if 65 ≤ c.toNat ∧ c.toNat ≤ 90 then c.toNat + 32 else c.toNat := by
    delta Char.toLower
    split
    case isTrue hupper =>
      have hbounds : 65 ≤ c.toNat ∧ c.toNat ≤ 90 := hupper
      have hsum : (c.val + (97 - 65)).toNat = c.val.toNat + 32 := by
        rw [UInt32.toNat_add]
        exact Nat.mod_eq_of_lt (Nat.lt_of_le_of_lt (Nat.add_le_add_right hbounds.2 32) (by decide))
      rw [if_pos hbounds]
      exact hsum
    case isFalse hother => exact (if_neg hother).symm
  rw [digitValue?, digitValue?, hcode]
  split_ifs <;> grind

theorem ofDigits_map_toLower (digits : List Char) :
    ofDigits 16 (digits.map Char.toLower) = ofDigits 16 digits := by
  simp only [ofDigits, List.foldl_map, digitValue?_toLower]

/-- The digits are those of the decimal numerals and the letters from A to F, in ASCII. -/
theorem code_of_isDigit {c : Char} (hc : isDigit 16 c = true) :
    48 ≤ c.toNat ∧ c.toNat ≤ 57 ∨ 65 ≤ c.toNat ∧ c.toNat ≤ 70 ∨ 97 ≤ c.toNat ∧ c.toNat ≤ 102 := by
  by_contra hother
  have hnone : digitValue? 16 c = none := by
    simp only [digitValue?]
    rw [if_neg (by omega : ¬ (48 ≤ c.toNat ∧ c.toNat ≤ 57)),
      if_neg (by omega : ¬ (97 ≤ c.toNat ∧ c.toNat ≤ 102)),
      if_neg (by omega : ¬ (65 ≤ c.toNat ∧ c.toNat ≤ 70)), if_neg (lt_irrefl 16)]
  rw [isDigit, hnone] at hc
  cases hc

end Numeral

namespace Hash

open Numeral

theorem not_isBlank_of_isDigit {c : Char} (hc : isDigit 16 c = true) : Text.isBlank c = false := by
  have hcode := code_of_isDigit hc
  simp only [Text.isBlank, Bool.or_eq_false_iff, Bool.and_eq_false_iff, decide_eq_false_iff_not,
    beq_eq_false_iff_ne]
  omega

theorem no_blank_of_all {text : List Char} (hall : text.all (isDigit 16) = true) :
    ∀ c ∈ text, Text.isBlank c = false :=
  fun c hmem => not_isBlank_of_isDigit (List.all_eq_true.mp hall c hmem)

theorem dropMark_of_all {text : List Char} (hall : text.all (isDigit 16) = true) :
    dropMark text = text := by
  unfold dropMark
  split
  · have : isDigit 16 'x' = false := by decide
    simp [this] at hall
  · have : isDigit 16 'X' = false := by decide
    simp [this] at hall
  · rfl

theorem parse_of_isHash {text : Text} (hvalid : isHash text = true) :
    parse text = .ok (ofDigits 16 (digits text)) := by
  obtain ⟨hne, hall⟩ := Bool.and_eq_true_iff.mp hvalid
  rw [Bool.not_eq_eq_eq_not, Bool.not_true] at hne
  simp only [parse, hne, hall]
  rfl

theorem isHash_of_parse {text : Text} {y : ℕ} (hparse : parse text = .ok y) :
    isHash text = true := by
  simp only [parse] at hparse
  split at hparse
  · cases hparse
  · split at hparse
    · cases hparse
    · simp_all [isHash]

/-- Digits with blanks around them, and with a mark in front or none. -/
structure Spells (text digits : List Char) : Prop where
  around : ∃ before mark after, text = before ++ (mark ++ digits) ++ after
    ∧ Text.AllBlank before ∧ Text.AllBlank after
    ∧ (mark = [] ∨ mark = ['0', 'x'] ∨ mark = ['0', 'X'])
  nonempty : digits ≠ []
  hexadecimal : digits.all (isDigit 16) = true

theorem exists_mark (text : List Char) :
    ∃ mark, text = mark ++ dropMark text
      ∧ (mark = [] ∨ mark = ['0', 'x'] ∨ mark = ['0', 'X']) := by
  unfold dropMark
  split
  · exact ⟨['0', 'x'], rfl, .inr (.inl rfl)⟩
  · exact ⟨['0', 'X'], rfl, .inr (.inr rfl)⟩
  · exact ⟨[], rfl, .inl rfl⟩

theorem Spells.digits_eq {text : Text} {spelled : List Char} (hspells : Spells text.chars spelled) :
    digits text = spelled := by
  obtain ⟨before, mark, after, hchars, hbefore, hafter, hmark⟩ := hspells.around
  have hdigits := no_blank_of_all hspells.hexadecimal
  have hnone : ∀ c ∈ mark ++ spelled, Text.isBlank c = false := by
    intro c hmem
    rcases List.mem_append.mp hmem with hmem | hmem
    · rcases hmark with rfl | rfl | rfl
      · cases hmem
      · obtain rfl | rfl : c = '0' ∨ c = 'x' := by simpa using hmem
        · decide
        · decide
      · obtain rfl | rfl : c = '0' ∨ c = 'X' := by simpa using hmem
        · decide
        · decide
    · exact hdigits c hmem
  rw [digits, hchars, Text.trim_surrounded hbefore hafter hnone]
  rcases hmark with rfl | rfl | rfl
  · exact dropMark_of_all hspells.hexadecimal
  · rfl
  · rfl

/-- **Which texts are hashes.** A text is read exactly if it spells digits, and it is read as their
value. -/
theorem parse_eq_ok_iff {text : Text} {y : ℕ} :
    parse text = .ok y ↔ ∃ digits, Spells text.chars digits ∧ ofDigits 16 digits = y := by
  constructor
  · intro hparse
    have hvalid := isHash_of_parse hparse
    rw [parse_of_isHash hvalid] at hparse
    obtain ⟨hne, hall⟩ := Bool.and_eq_true_iff.mp hvalid
    obtain ⟨before, after, htrim, hbefore, hafter⟩ := Text.exists_trim text.chars
    obtain ⟨mark, hmark, hcases⟩ := exists_mark (Text.trim text.chars)
    refine ⟨digits text, ⟨⟨before, mark, after, ?_, hbefore, hafter, hcases⟩, ?_, hall⟩,
      Except.ok.inj hparse⟩
    · rw [digits, ← hmark, ← htrim]
    · simpa using hne
  · rintro ⟨spelled, hspells, rfl⟩
    have hvalid : isHash text = true := by
      simp only [isHash, hspells.digits_eq]
      simp [hspells.nonempty, hspells.hexadecimal]
    rw [parse_of_isHash hvalid, hspells.digits_eq]

theorem parse_cases (text : Text) :
    (∃ y digits, parse text = .ok y ∧ Spells text.chars digits ∧ ofDigits 16 digits = y)
      ∨ ∃ flaw, parse text = .error (.field (.badHash text flaw))
        ∧ ¬ ∃ digits, Spells text.chars digits := by
  cases hparse : parse text with
  | ok y =>
      obtain ⟨spelled, hspells, hvalue⟩ := parse_eq_ok_iff.mp hparse
      exact .inl ⟨y, spelled, rfl, hspells, hvalue⟩
  | error fault =>
      have hnone : ¬ ∃ digits, Spells text.chars digits := by
        rintro ⟨spelled, hspells⟩
        rw [parse_eq_ok_iff.mpr ⟨spelled, hspells, rfl⟩] at hparse
        cases hparse
      simp only [parse] at hparse
      split at hparse
      · exact .inr ⟨_, congrArg _ (Except.error.inj hparse).symm, hnone⟩
      · split at hparse
        · exact .inr ⟨_, congrArg _ (Except.error.inj hparse).symm, hnone⟩
        · cases hparse

/-- **What is written is read back**, at any width. -/
theorem parse_write (value width : ℕ) : parse (Text.ofString (write value width)) = .ok value := by
  obtain ⟨hall, hne⟩ := all_toDigitsOnto (by decide : 2 ≤ 16) le_rfl value [] rfl
  have hpadded : (pad width (toDigits 16 value)).all (isDigit 16) = true := by
    have hzero : isDigit 16 '0' = true := by decide
    rw [pad, List.all_append, toDigits, hall, List.all_replicate]
    simp [hzero]
  have hdigits : digits (Text.ofString (write value width)) = pad width (toDigits 16 value) := by
    rw [digits, write, Text.chars, Text.ofString, Text.charsOf_flatMap_unitsOf,
      String.toList_ofList, Text.trim_of_no_blank (no_blank_of_all hpadded), dropMark_of_all hpadded]
  have hnonempty : (pad width (toDigits 16 value)).isEmpty = false := by
    rw [List.isEmpty_eq_false_iff, pad]
    exact List.append_ne_nil_of_right_ne_nil _ hne
  simp only [parse, hdigits, hnonempty, hpadded]
  rw [pad, ofDigits_replicate_append, ofDigits_toDigits (by decide) le_rfl]
  rfl

/-- The digits of a hash in lower case and without zeros in front. -/
def canonical (text : Text) : List Char :=
  ((digits text).map Char.toLower).dropWhile (· == '0')

theorem ofDigits_canonical (text : Text) :
    ofDigits 16 (canonical text) = ofDigits 16 (digits text) := by
  rw [canonical, ofDigits_dropWhile, ofDigits_map_toLower]

theorem parse_eq_of_canonical_eq {a b : Text} (ha : isHash a = true) (hb : isHash b = true)
    (heq : canonical a = canonical b) : parse a = parse b := by
  rw [parse_of_isHash ha, parse_of_isHash hb, ← ofDigits_canonical a, heq, ofDigits_canonical]

end Hash

end AngleSeries
