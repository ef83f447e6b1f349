import AngleSeries.Proofs.ExactFractions
import AngleSeries.Proofs.ReadNumerals
import AngleSeries.Proofs.WrittenHashes

/-!
# The fraction of a decimal

A decimal becomes a fraction digit by digit: the numerator has the digits of the decimal and no
others, and the power of ten is that of the last one. The same fraction can be cut out of the
exponential notation. There the exponent belongs to the first digit, and the digits behind the point
are what it is ahead of the last one. Since decimals end in a digit other than zero, no fraction with
a shorter numerator has the value, and equal values have equal fractions.
-/

namespace AngleSeries

open Numeral

namespace Numeral

theorem digitCount_mono {m n : ℕ} (hle : m ≤ n) : digitCount m ≤ digitCount n := by
  rw [digitCount_eq_log, digitCount_eq_log]
  exact Nat.add_le_add_right (Nat.log_mono_right hle) 1

theorem all_toDigits_ten (n : ℕ) :
    (toDigits 10 n).all isDecimalDigit = true ∧ toDigits 10 n ≠ [] :=
  all_toDigitsOnto (by decide) (by decide) n [] rfl

theorem length_toDigits_ten (n : ℕ) : (toDigits 10 n).length = digitCount n := by
  rw [length_toDigits (by decide), digitCount_eq_log]

end Numeral

/-! ### Exponential notation -/

/-- What stands in front of the first mark, and what stands behind it. -/
def cutAt (mark : Char) (text : List Char) : List Char × List Char :=
  (text.takeWhile (· != mark), (text.dropWhile (· != mark)).tail)

namespace Fraction

/-- The fraction that an exponential notation shows: the digits around the point make up the
numerator, and the exponent is less by the number of those behind the point. -/
def ofNotation (text : List Char) : Fraction :=
  let (mantissa, exponent) := cutAt 'e' text
  let negative := mantissa.head? == some '-'
  let (whole, fraction) := cutAt '.' (if negative then mantissa.tail else mantissa)
  let digits : Int := ofDigits 10 (whole ++ fraction)
  { numerator := if negative then -digits else digits
    denominator := 1
    exponent := Double.ofText (String.ofList exponent) - Double.ofNat fraction.length
    positive := Nat.one_pos }

end Fraction

section Cuts

variable {mark : Char} {front : List Char} (hfront : ∀ c ∈ front, c ≠ mark)

include hfront

theorem cutAt_of_stops {behind : List Char} (hstops : Stops (· != mark) behind) :
    cutAt mark (front ++ behind) = (front, behind.tail) := by
  have hall : front.all (· != mark) = true :=
    List.all_eq_true.mpr fun c hc => bne_iff_ne.mpr (hfront c hc)
  have hspan := span_append hall hstops
  rw [List.span_eq_takeWhile_dropWhile, Prod.mk.injEq] at hspan
  rw [cutAt, hspan.1, hspan.2]

theorem cutAt_append (behind : List Char) : cutAt mark (front ++ mark :: behind) = (front, behind) :=
  cutAt_of_stops hfront (stops_cons (by simp))

theorem cutAt_of_unmarked : cutAt mark front = (front, []) := by
  have hcut := cutAt_of_stops hfront stops_nil
  rwa [List.append_nil, List.tail_nil] at hcut

end Cuts

/-- A numeral of an integer in the safe range is read as that integer. -/
theorem Double.ofText_eq_ofInt {text : String} {n : ℤ}
    (hnumeral : IsNumeral (Text.trim text.toList) n) (hn : |n| ≤ maxSafe) (hzero : n ≠ 0) :
    ofText text = ofInt n := by
  have hsmall := natAbs_le_of_safe hn
  have hsafe := (isNearest_ofText hnumeral).toSafeInt?_eq_some_iff.mpr
    ⟨roundBinary_intCast hsmall, hn⟩
  exact eq_of_toInt?_eq (toSafeInt?_eq_some_iff.mp hsafe).1 (toInt?_ofInt hsmall) hzero

/-- The exponent of the notation, without its mark. -/
def exponentDigits (lead : ℤ) : List Char :=
  (if lead < 0 then '-' else '+') :: toDigits 10 lead.natAbs

theorem exponentText_eq (lead : ℤ) : Layout.exponentText true lead = 'e' :: exponentDigits lead := by
  rw [Layout.exponentText, exponentDigits]
  split <;> rfl

section Exponent

variable (lead : ℤ)

theorem isNumeral_exponentDigits : IsNumeral (exponentDigits lead) lead := by
  obtain ⟨hall, hne⟩ := all_toDigits_ten lead.natAbs
  have hdecimal : IsDecimal (toDigits 10 lead.natAbs) (lead.natAbs : ℚ) := by
    have hvalue : lead.natAbs = ofDigits 10 (toDigits 10 lead.natAbs) :=
      (ofDigits_toDigits (by decide) (by decide) _).symm
    have hscaled := IsDecimal.scaled (.whole ⟨hne, hall, hvalue⟩) .absent
    rwa [List.append_nil, zpow_zero, mul_one] at hscaled
  refine .decimal ?_
  rw [exponentDigits]
  split
  case isTrue hneg =>
    have hsign : (lead : ℚ) = -(lead.natAbs : ℚ) := by
      rw [Nat.cast_natAbs, abs_of_neg hneg, Int.cast_neg, neg_neg]
    rw [hsign]
    exact .minus hdecimal
  case isFalse hneg =>
    have hsign : (lead : ℚ) = (lead.natAbs : ℚ) := by
      rw [Nat.cast_natAbs, abs_of_nonneg (not_lt.mp hneg)]
    rw [hsign]
    exact .plus hdecimal

theorem trim_exponentDigits : Text.trim (exponentDigits lead) = exponentDigits lead := by
  refine Text.trim_of_no_blank fun c hc => ?_
  rw [exponentDigits] at hc
  rcases List.mem_cons.mp hc with rfl | hdigit
  · split <;> decide
  · exact not_isBlank_of_isDecimalDigit
      (List.all_eq_true.mp (all_toDigits_ten lead.natAbs).1 c hdigit)

/-- The exponent of the notation is read as the binary64 number of its integer. -/
theorem ofText_exponentDigits (hlead : |lead| ≤ Double.maxSafe) :
    Double.ofText (String.ofList (exponentDigits lead)) = Double.ofInt lead := by
  by_cases hzero : lead = 0
  · subst hzero
    decide +kernel
  · refine Double.ofText_eq_ofInt ?_ hlead hzero
    rw [String.toList_ofList, trim_exponentDigits]
    exact isNumeral_exponentDigits lead

end Exponent

namespace Fraction

theorem mem_point {rest : List Char} {c : Char} (hc : c ∈ Json.point rest) : c = '.' ∨ c ∈ rest := by
  unfold Json.point at hc
  split at hc
  · cases hc
  · exact List.mem_cons.mp hc

section Shown

variable {first : Char} {rest : List Char} (hfirst : isDecimalDigit first = true)
  (hrest : rest.all isDecimalDigit = true)

include hfirst

theorem cutAt_point :
    cutAt '.' (first :: Json.point rest) = ([first], rest) := by
  have hmark : ∀ c ∈ [first], c ≠ '.' := by
    intro c hc
    obtain rfl := List.mem_singleton.mp hc
    exact isDecimalDigit_ne hfirst (by decide)
  by_cases hnone : rest = []
  · subst hnone
    exact cutAt_of_unmarked hmark
  · rw [Json.point_of_ne_nil hnone]
    exact cutAt_append hmark rest

include hrest

theorem ofNotation_shown (negative : Bool) (exponent : List Char) :
    ofNotation ((if negative then ['-'] else []) ++ first :: Json.point rest ++ 'e' :: exponent)
      = ⟨if negative then -(ofDigits 10 (first :: rest) : ℤ) else ofDigits 10 (first :: rest), 1,
        Double.ofText (String.ofList exponent) - Double.ofNat rest.length, Nat.one_pos⟩ := by
  have hmarks : ∀ c ∈ (if negative then ['-'] else []) ++ first :: Json.point rest, c ≠ 'e' := by
    intro c hc
    rw [List.mem_append, List.mem_cons] at hc
    rcases hc with hsign | rfl | hpoint
    · obtain rfl : c = '-' := by
        split at hsign
        · exact List.mem_singleton.mp hsign
        · cases hsign
      decide
    · exact isDecimalDigit_ne hfirst (by decide)
    · rcases mem_point hpoint with rfl | hdigit
      · decide
      · exact isDecimalDigit_ne (List.all_eq_true.mp hrest c hdigit) (by decide)
  have hsign : (((if negative then ['-'] else []) ++ first :: Json.point rest).head? == some '-')
      = negative := by
    have hlead := isDecimalDigit_ne hfirst (show isDecimalDigit '-' = false by decide)
    cases negative <;> simp [hlead]
  have hbody : (if negative then ((if negative then ['-'] else []) ++ first :: Json.point rest).tail
      else (if negative then ['-'] else []) ++ first :: Json.point rest) = first :: Json.point rest := by
    cases negative <;> rfl
  rw [ofNotation, cutAt_append hmarks]
  simp only [hsign, hbody, cutAt_point hfirst, List.singleton_append]

end Shown

/-- A decimal in exponential notation, taken apart. -/
theorem exponential_finite (negative : Bool) {coefficient : ℕ} {exponent : ℤ}
    (normal : Normal coefficient exponent) : ∃ first rest,
      toDigits 10 coefficient = first :: rest
      ∧ (Decimal.finite negative coefficient exponent normal).exponential.toList
        = (if negative && coefficient != 0 then ['-'] else []) ++ first :: Json.point rest
          ++ 'e' :: exponentDigits (leadOf coefficient exponent) := by
  obtain ⟨first, rest, hdigits⟩ := List.exists_cons_of_ne_nil (all_toDigits_ten coefficient).2
  refine ⟨first, rest, hdigits, ?_⟩
  have hbody : Decimal.exponentialLayout.writeScaled coefficient exponent
      = first :: Json.point rest ++ 'e' :: exponentDigits (leadOf coefficient exponent) := by
    have hlead : exponent + ((first :: rest).length : ℤ) - 1 = leadOf coefficient exponent := by
      rw [leadOf, ← length_toDigits_ten, hdigits]
    have hpositional : ¬(Decimal.exponentialLayout.plainMin ≤ leadOf coefficient exponent
        ∧ leadOf coefficient exponent ≤ Decimal.exponentialLayout.plainMax) := by
      change ¬((0 : ℤ) ≤ _ ∧ _ ≤ (-1 : ℤ))
      omega
    rw [Layout.writeScaled, hdigits]
    simp only [hlead]
    rw [Layout.write, if_neg hpositional, ← exponentText_eq]
    cases rest <;> rfl
  rw [Decimal.exponential, Decimal.textWith, Decimal.magnitudeText, hbody]
  simp only [Bool.false_or]
  split
  · simp
  · simp

/-- **The fraction is the one that the notation shows.** -/
theorem ofDecimal_eq_ofNotation {d : Decimal} (hd : d.isFinite = true) :
    ofDecimal d = .ok (ofNotation d.exponential.toList) := by
  obtain ⟨negative, coefficient, exponent, normal, rfl⟩ := Decimal.exists_of_isFinite hd
  obtain ⟨first, rest, hdigits, htext⟩ := exponential_finite negative normal
  have hall := (all_toDigits_ten coefficient).1
  have hvalue : ofDigits 10 (first :: rest) = coefficient := by
    rw [← hdigits, ofDigits_toDigits (by decide) (by decide)]
  have hlength : rest.length = digitCount coefficient - 1 := by
    rw [← length_toDigits_ten, hdigits, List.length_cons, Nat.add_sub_cancel]
  have hlead : |leadOf coefficient exponent| ≤ Double.maxSafe :=
    (Decimal.abs_leadOf_le normal).trans (by decide)
  rw [hdigits, List.all_cons, Bool.and_eq_true] at hall
  rw [htext, ofNotation_shown hall.1 hall.2, hvalue, hlength, ofText_exponentDigits _ hlead,
    ofDecimal]
  by_cases hzero : coefficient = 0
  · subst hzero
    simp
  · simp [hzero]

end Fraction

/-! ### Significant digits -/

/-- Digits that do not end in zero are as few as the value allows. -/
theorem digitCount_le_of_scaled {m n : ℕ} {p q : ℤ} (hm : m % 10 ≠ 0)
    (heq : (m : ℚ) * 10 ^ p = n * 10 ^ q) : digitCount m ≤ digitCount n := by
  have hn : n ≠ 0 := by
    rintro rfl
    rw [Nat.cast_zero, zero_mul, mul_eq_zero, or_iff_left (zpow_ne_zero _ (by norm_num)),
      Nat.cast_eq_zero] at heq
    exact hm (by rw [heq])
  obtain ⟨k, hsplit, -, hlast⟩ := stripZeros_spec hn q
  generalize (stripZeros n q).1 = stripped at hsplit hlast
  have hsame : (m : ℚ) * 10 ^ p = stripped * 10 ^ (k + q) := by
    rw [heq, hsplit, Nat.cast_mul, Nat.cast_pow, zpow_add₀ (by norm_num), zpow_natCast,
      Nat.cast_ofNat, mul_assoc]
  obtain ⟨rfl, -⟩ := Decimal.parts_unique hm hlast hsame
  refine digitCount_mono ?_
  rw [hsplit]
  exact Nat.le_mul_of_pos_right m (Nat.pow_pos (by decide))

namespace Decimal

/-- An integer that has the value of a decimal up to its power of ten has all the digits of it. -/
theorem digitLength_le {d : Decimal} (hd : d.isFinite = true) {n e : ℤ}
    (hvalue : (n : ℚ) * 10 ^ e = d.toRat) : d.digitLength ≤ digitCount n.natAbs := by
  obtain ⟨negative, coefficient, exponent, normal, rfl⟩ := exists_of_isFinite hd
  by_cases hzero : coefficient = 0
  · subst hzero
    exact digitCount_mono (Nat.zero_le _)
  · refine digitCount_le_of_scaled (last_digit_ne_zero normal hzero) (p := exponent) (q := e) ?_
    have habs := congrArg abs hvalue
    rw [toRat_finite, abs_signed, abs_mul, abs_of_pos (by positivity : (0 : ℚ) < 10 ^ e),
      abs_of_nonneg (by positivity : (0 : ℚ) ≤ coefficient * 10 ^ exponent), ← Int.cast_abs,
      ← Nat.cast_natAbs] at habs
    exact habs.symm

/-- Equal numbers are one decimal but for the sign of a zero. -/
theorem plainZero_eq_of_toRat_eq {x y : Decimal} (hx : x.isFinite = true) (hy : y.isFinite = true)
    (heq : x.toRat = y.toRat) : x.plainZero = y.plainZero := by
  rw [plainZero, plainZero, isZero_eq_of_toRat_eq hx hy heq]
  split
  case isTrue => rfl
  case isFalse hzero =>
    refine eq_of_toRat_eq hx hy ?_ heq
    rwa [heq, Ne, toRat_eq_zero_iff_isZero hy]

end Decimal

namespace Fraction

/-- The sign of a zero does not get into the fraction. -/
theorem ofDecimal_plainZero {d : Decimal} (hd : d.isFinite = true) :
    ofDecimal d.plainZero = ofDecimal d := by
  obtain ⟨negative, coefficient, exponent, normal, rfl⟩ := Decimal.exists_of_isFinite hd
  rw [Decimal.plainZero]
  split
  case isTrue hzero =>
    obtain rfl : coefficient = 0 := beq_iff_eq.mp hzero
    obtain ⟨-, rfl⟩ | ⟨hlast, -⟩ := normal
    · cases negative <;> rfl
    · exact absurd rfl hlast
  case isFalse => rfl

/-- What a fraction holds of a decimal. -/
structure Holds (value : Fraction) (d : Decimal) : Prop where
  shown : value = ofNotation d.exponential.toList
  denominator : value.denominator = 1
  exact : ∃ e : ℤ, value.exponent.toInt? = some e ∧ (value.numerator : ℚ) * 10 ^ e = d.toRat
  digits : digitCount value.numerator.natAbs = d.digitLength
  fewest : ∀ n e : ℤ, (n : ℚ) * 10 ^ e = d.toRat →
    digitCount value.numerator.natAbs ≤ digitCount n.natAbs
  zero : d.isZero = true → value.numerator = 0

section Decimals

variable {d : Decimal} (hd : d.isFinite = true) (hdigits : d.digitLength < digitBound)

include hd hdigits

theorem exists_holds : ∃ value, ofDecimal d = .ok value ∧ value.Holds d := by
  obtain ⟨value, hvalue, hnumerator, hdenominator, hexponent⟩ := exists_ofDecimal hd
  have hcount : digitCount value.numerator.natAbs = d.digitLength := by
    rw [hnumerator, Decimal.digitCount_signedCoefficient hd]
  refine ⟨value, hvalue, ?_, hdenominator, ⟨_, hexponent hdigits, ?_⟩, hcount, ?_, ?_⟩
  · exact Except.ok.inj (hvalue.symm.trans (ofDecimal_eq_ofNotation hd))
  · rw [hnumerator, Decimal.toRat_eq hd]
  · intro n e hscaled
    rw [hcount]
    exact Decimal.digitLength_le hd hscaled
  · rw [hnumerator]
    exact (Decimal.signedCoefficient_eq_zero_iff hd).mpr

/-- Equal fractions come from equal decimals. -/
theorem ofDecimal_eq_iff {other : Decimal} (hother : other.isFinite = true) :
    ofDecimal other = ofDecimal d ↔ other.toRat = d.toRat := by
  constructor
  · intro hsame
    obtain ⟨value, hvalue, hnumerator, -, hexponent⟩ := exists_ofDecimal hd
    obtain ⟨hotherNumerator, -, hotherExponent⟩ := ofDecimal_parts hother (hsame.trans hvalue)
    have hlength : other.digitLength = d.digitLength := by
      rw [← Decimal.digitCount_signedCoefficient hother, ← hotherNumerator, hnumerator,
        Decimal.digitCount_signedCoefficient hd]
    have hpower : other.lastExponent = d.lastExponent :=
      Option.some.inj ((hotherExponent (hlength.trans_lt hdigits)).symm.trans (hexponent hdigits))
    rw [Decimal.toRat_eq hother, Decimal.toRat_eq hd, hpower, ← hotherNumerator, hnumerator]
  · intro hequal
    rw [← ofDecimal_plainZero hother, ← ofDecimal_plainZero hd,
      Decimal.plainZero_eq_of_toRat_eq hother hd hequal]

/-- **A decimal becomes a fraction digit by digit.** There is a fraction, it is the one that the
exponential notation shows, it holds the value in as few digits as there can be, and another decimal
has the same fraction exactly if it is the same number. -/
theorem ofDecimal_holds : ∃ value, ofDecimal d = .ok value ∧ value.Holds d
    ∧ ∀ other : Decimal, other.isFinite = true →
      (ofDecimal other = .ok value ↔ other.toRat = d.toRat) := by
  obtain ⟨value, hvalue, hholds⟩ := exists_holds hd hdigits
  refine ⟨value, hvalue, hholds, fun other hother => ?_⟩
  rw [← hvalue]
  exact ofDecimal_eq_iff hd hdigits hother

end Decimals

/-- Three digits at the upper end of the range. -/
def farthest : Decimal :=
  .ofScaled true 125 (exponentLimit - 2)

theorem farthest_holds : farthest.isFinite = true ∧ farthest.digitLength < digitBound
    ∧ ∃ value, ofDecimal farthest = .ok value ∧ value.Holds farthest ∧ value.numerator = -125 := by
  have hfinite : farthest.isFinite = true := by decide +kernel
  have hdigits : farthest.digitLength < digitBound := by decide +kernel
  obtain ⟨value, hvalue, hholds, -⟩ := ofDecimal_holds hfinite hdigits
  have hnumerator : value.numerator = -125 := by
    rw [(ofDecimal_parts hfinite hvalue).1]
    decide +kernel
  exact ⟨hfinite, hdigits, value, hvalue, hholds, hnumerator⟩

end Fraction

end AngleSeries
