import AngleSeries.Proofs.DecimalValue
import AngleSeries.Proofs.NumberTexts
import AngleSeries.Transform.Draft

/-!
# Decimal and integer texts

The text of a decimal is a sign before a spelling of its magnitude, in every layout. A reader that
takes off the sign finds the parts of the spelling again, and bringing them into normal form takes
away the zeros that the layout put behind the digits. So the decimal comes back; only a layout that
shows no sign of a zero loses that sign. An integer text comes back too, because there is nothing to
trim from it.
-/

namespace AngleSeries

namespace Json

open Numeral

theorem eq_of_readDigits? {text digits : List Char} (hread : readDigits? text = some (digits, [])) :
    text = digits ∧ digits.all isDecimalDigit = true ∧ digits ≠ [] := by
  simp only [readDigits?, spanDigits, List.span_eq_takeWhile_dropWhile] at hread
  split at hread
  case isTrue => cases hread
  case isFalse hne =>
    obtain ⟨rfl, hrest⟩ := Prod.mk.inj (Option.some.inj hread)
    have hwhole : text.takeWhile isDecimalDigit ++ text.dropWhile isDecimalDigit = text :=
      List.takeWhile_append_dropWhile
    rw [hrest, List.append_nil] at hwhole
    exact ⟨hwhole.symm, List.all_takeWhile, by simpa using hne⟩

/-- An exponent that uses up the text is an integer behind its mark. -/
theorem readInt?_of_readExponent? {mark : Char} {rest : List Char} {exponent : ℤ}
    (hread : readExponent? (mark :: rest) = some (exponent, [])) :
    (mark = 'e' ∨ mark = 'E') ∧ readInt? rest = some exponent := by
  unfold readExponent? at hread
  dsimp only at hread
  split at hread
  case isFalse => cases hread
  case isTrue hmark =>
    refine ⟨hmark, ?_⟩
    have hdigits (negative : Bool) {body : List Char}
        (hbody : (readDigits? body >>= fun parts => some
          (if negative then -((ofDigits 10 parts.1 : ℕ) : ℤ) else ((ofDigits 10 parts.1 : ℕ) : ℤ),
            parts.2)) = some (exponent, [])) :
        body.all isDecimalDigit = true ∧ body ≠ []
          ∧ exponent
            = if negative then -((ofDigits 10 body : ℕ) : ℤ) else (ofDigits 10 body : ℕ) := by
      obtain ⟨⟨digits, after⟩, hparts, heq⟩ := Option.bind_eq_some_iff.mp hbody
      obtain ⟨hexponent, hafter⟩ := Prod.mk.inj (Option.some.inj heq)
      obtain rfl : after = [] := hafter
      obtain ⟨rfl, hall, hne⟩ := eq_of_readDigits? hparts
      exact ⟨hall, hne, hexponent.symm⟩
    split at hread
    case h_1 body =>
      obtain ⟨hall, hne, rfl⟩ := hdigits true hread
      exact readInt?_minus hall hne
    case h_2 body =>
      obtain ⟨hall, hne, rfl⟩ := hdigits false hread
      simp [readInt?, hall, hne]
    case h_3 =>
      obtain ⟨hall, hne, rfl⟩ := hdigits false hread
      exact readInt?_digits hall hne

end Json

namespace Literal

open Numeral Json

/-- The digits behind a point, if there is one, and what follows them. -/
def readFraction (text : List Char) : List Char × List Char :=
  match text with
  | '.' :: rest => spanDigits rest
  | rest => ([], rest)

/-- A literal with the exponent that stands behind its digits. -/
def withExponent? (whole fraction tail : List Char) : Option Literal :=
  match tail with
  | [] => some ⟨whole, fraction, 0⟩
  | mark :: rest =>
    if mark = 'e' ∨ mark = 'E' then
      (readInt? rest).map fun exponent => ⟨whole, fraction, exponent⟩
    else none

theorem read?_eq (text : List Char) :
    read? text =
      if (spanDigits text).1.isEmpty && (readFraction (spanDigits text).2).1.isEmpty then none
      else
        withExponent? (spanDigits text).1 (readFraction (spanDigits text).2).1
          (readFraction (spanDigits text).2).2 := rfl

variable (spelling : Spelling)

theorem readFraction_point :
    readFraction (point spelling.literal.fraction ++ spelling.tail)
      = (spelling.literal.fraction, spelling.tail) := by
  by_cases hnone : spelling.literal.fraction = []
  · rw [hnone, point, List.isEmpty_nil, if_pos rfl, List.nil_append, readFraction]
    intro rest htail
    have hcontra := spelling.marked '.' (by rw [htail]; rfl)
    cases hcontra
  · rw [point_of_ne_nil hnone]
    exact span_append spelling.fraction spelling.stops_tail

theorem withExponent?_tail (whole fraction : List Char) :
    withExponent? whole fraction spelling.tail
      = some ⟨whole, fraction, spelling.literal.exponent⟩ := by
  have hexponent := spelling.exponent
  cases htail : spelling.tail with
  | nil =>
      rw [htail] at hexponent
      rw [← (Prod.mk.inj (Option.some.inj hexponent)).1]
      rfl
  | cons mark rest =>
      rw [htail] at hexponent
      obtain ⟨hmark, hread⟩ := readInt?_of_readExponent? hexponent
      rw [withExponent?, if_pos hmark, hread, Option.map_some]

/-- The parts of a spelling are found again. -/
theorem read?_text : read? spelling.text = some spelling.literal := by
  have hwhole : spelling.literal.whole.all isDecimalDigit = true
      ∧ spelling.literal.whole.isEmpty = false := by
    rcases spelling.whole with hzero | ⟨hall, c, rest, hdigits, -⟩
    · rw [hzero]
      exact ⟨rfl, rfl⟩
    · exact ⟨hall, by rw [hdigits]; rfl⟩
  have hspan : spanDigits spelling.text
      = (spelling.literal.whole, point spelling.literal.fraction ++ spelling.tail) :=
    span_append hwhole.1 spelling.stops_point
  rw [read?_eq, hspan, readFraction_point, hwhole.2, Bool.false_and, if_neg Bool.false_ne_true]
  exact withExponent?_tail spelling _ _

end Literal

/-! ### Signs -/

namespace Text

theorem chars_ofString (string : String) : (ofString string).chars = string.toList :=
  charsOf_flatMap_unitsOf string.toList

theorem chars_flatMap (chars : List Char) : Text.chars ⟨chars.flatMap unitsOf⟩ = chars :=
  charsOf_flatMap_unitsOf chars

end Text

namespace Decimal

open Numeral Json

/-- What begins with a digit has no sign. -/
theorem splitSign_text (spelling : Spelling) :
    splitSign ⟨spelling.text.flatMap Text.unitsOf⟩
      = (false, ⟨spelling.text.flatMap Text.unitsOf⟩) := by
  obtain ⟨c, rest, htext, hc⟩ : ∃ c rest, spelling.text = c :: rest ∧ isDecimalDigit c = true := by
    rcases spelling.whole with hzero | ⟨hall, c, rest, hdigits, -⟩
    · exact ⟨'0', _, by rw [Spelling.text, hzero]; rfl, by decide⟩
    · rw [hdigits, List.all_cons, Bool.and_eq_true] at hall
      exact ⟨c, _, by rw [Spelling.text, hdigits]; rfl, hall.1⟩
  have hlow : c.toNat < 128 := toNat_lt_of_isNumberChar (by rw [isNumberChar, hc]; rfl)
  obtain ⟨hunits, hglyph⟩ := Text.unitsOf_of_lt hlow
  -- the first unit shows a digit, so it is the unit of no sign
  have hsign {sign : UInt16} (hmark : isDecimalDigit (Text.glyph sign) = false) :
      UInt16.ofNat c.toNat ≠ sign := by
    rintro rfl
    rw [hglyph, hc] at hmark
    cases hmark
  rw [htext, List.flatMap_cons, hunits, splitSign]
  simp only [List.cons_append]
  rw [if_neg (hsign (by decide)), if_neg (hsign (by decide))]

/-- A sign and a spelling are read as the number that they spell. -/
theorem ofText_spelling (negative : Bool) (spelling : Spelling) :
    ofText ⟨(if negative then '-' :: spelling.text else spelling.text).flatMap Text.unitsOf⟩
      = .ok (ofLiteral negative spelling.literal) := by
  have hsplit : splitSign
      ⟨(if negative then '-' :: spelling.text else spelling.text).flatMap Text.unitsOf⟩
        = (negative, ⟨spelling.text.flatMap Text.unitsOf⟩) := by
    cases negative with
    | false => exact splitSign_text spelling
    | true => rfl
  rw [ofText, hsplit]
  simp only [ofUnsigned?, Text.chars_flatMap, Literal.read?_text]

/-! ### Decimals -/

/-- A decimal with the sign of zero taken away. -/
def plainZero (x : Decimal) : Decimal :=
  if x.isZero then signedZero false else x

theorem toRat_plainZero (x : Decimal) : x.plainZero.toRat = x.toRat := by
  rw [plainZero]
  split
  case isTrue hzero =>
    cases x with
    | nan => cases hzero
    | infinite negative => cases hzero
    | finite negative coefficient exponent normal =>
        obtain rfl : coefficient = 0 := beq_iff_eq.mp hzero
        rw [toRat_signedZero, (toRat_eq_zero_iff _ _ _ normal).mpr rfl]
  case isFalse => rfl

theorem isFinite_plainZero {x : Decimal} (hx : x.isFinite = true) :
    x.plainZero.isFinite = true := by
  rw [plainZero]
  split
  · rfl
  · exact hx

theorem text_plainZero (x : Decimal) : x.plainZero.text = x.text := by
  rw [plainZero]
  split
  case isTrue hzero =>
    cases x with
    | nan => cases hzero
    | infinite negative => cases hzero
    | finite negative coefficient exponent normal =>
        obtain rfl : coefficient = 0 := beq_iff_eq.mp hzero
        obtain ⟨-, rfl⟩ | ⟨hlast, -⟩ := normal
        · cases negative <;> rfl
        · exact absurd rfl hlast
  case isFalse => rfl

/-- A zero is spelled too. -/
theorem exists_spelling_zero (layout : Layout) :
    ∃ spelling : Spelling, spelling.text = layout.writeScaled 0 0
      ∧ spelling.literal.coefficient = 0 := by
  have hdigits : toDigits 10 0 = ['0'] := by decide +kernel
  rw [Layout.writeScaled, hdigits, Layout.write]
  split
  · exact ⟨.plain ['0'] [] (.inl rfl) rfl, rfl, rfl⟩
  · refine ⟨⟨⟨['0'], [], 0⟩, Layout.exponentText layout.marksPlus 0, .inl rfl, rfl,
      stops_cons (by decide), Layout.readExponent?_exponentText layout.marksPlus 0,
      Layout.all_exponentText layout.marksPlus 0⟩, rfl, rfl⟩

/-- Zeros behind the digits are stripped again. -/
theorem stripZeros_scaled {coefficient : ℕ} (hlast : coefficient % 10 ≠ 0) (exponent : ℤ) (k : ℕ) :
    stripZeros (coefficient * 10 ^ k) (exponent - k) = (coefficient, exponent) := by
  induction k with
  | zero =>
      have hne : coefficient ≠ 0 := fun hzero => hlast (by rw [hzero, Nat.zero_mod])
      rw [pow_zero, mul_one, Nat.cast_zero, sub_zero, stripZeros, if_neg hne, if_neg hlast]
  | succ k ih =>
      have hscaled : coefficient * 10 ^ (k + 1) = coefficient * 10 ^ k * 10 := by
        rw [pow_succ, mul_assoc]
      have hne : coefficient * 10 ^ k ≠ 0 :=
        mul_ne_zero (fun hzero => hlast (by rw [hzero, Nat.zero_mod])) (by positivity)
      have hexponent : exponent - ((k + 1 : ℕ) : ℤ) + 1 = exponent - k := by
        push_cast
        ring
      rw [hscaled, stripZeros, if_neg (by omega), if_pos (Nat.mul_mod_left _ _),
        Nat.mul_div_cancel _ (by decide), hexponent, ih]

section Normal

variable {coefficient : ℕ} {exponent : ℤ} (normal : Normal coefficient exponent)

/-- The magnitude of a decimal is spelled, with either sign. -/
theorem exists_spelling_magnitude (layout : Layout) :
    ∃ spelling : Spelling, spelling.text = layout.writeScaled coefficient exponent
      ∧ ∀ negative,
        ofLiteral negative spelling.literal = finite negative coefficient exponent normal := by
  by_cases hne : coefficient = 0
  · subst hne
    obtain ⟨-, rfl⟩ | ⟨hlast, -⟩ := id normal
    · obtain ⟨spelling, htext, hcoefficient⟩ := exists_spelling_zero layout
      refine ⟨spelling, htext, fun negative => ?_⟩
      rw [ofLiteral, hcoefficient, ofScaled, stripZeros, if_pos rfl]
      exact dif_pos normal
    · exact absurd rfl hlast
  · obtain ⟨spelling, htext, k, hcoefficient, hscale⟩ :=
      layout.exists_spelling_writeScaled hne exponent
    refine ⟨spelling, htext, fun negative => ?_⟩
    rw [ofLiteral, hcoefficient, hscale, ofScaled,
      stripZeros_scaled (last_digit_ne_zero normal hne) exponent k]
    exact dif_pos normal

end Normal

/-- **A decimal text is read back** in every layout. The sign of a zero comes back if the layout
shows it. -/
theorem ofText_textWith (layout : Layout) (signsZero : Bool) {x : Decimal}
    (hx : x.isFinite = true) :
    ofText (x.textWith layout signsZero) = .ok (if signsZero then x else x.plainZero) := by
  obtain ⟨negative, coefficient, exponent, normal, rfl⟩ := exists_of_isFinite hx
  obtain ⟨spelling, htext, hvalue⟩ := exists_spelling_magnitude normal layout
  have hread (sign : Bool) := ofText_spelling sign spelling
  simp only [hvalue] at hread
  have hshown (sign : Bool) : Text.ofString
      (if sign then "-" ++ magnitudeText layout coefficient exponent
        else magnitudeText layout coefficient exponent)
      = ⟨(if sign then '-' :: spelling.text else spelling.text).flatMap Text.unitsOf⟩ := by
    rw [magnitudeText, ← htext]
    cases sign
    · simp [Text.ofString]
    · simp [Text.ofString]
  rw [textWith]
  simp only [hshown, hread, plainZero, isZero, beq_iff_eq, Except.ok.injEq]
  by_cases hzero : coefficient = 0
  · subst hzero
    obtain ⟨-, rfl⟩ | ⟨hlast, -⟩ := id normal
    · cases signsZero <;> simp [signedZero]
    · exact absurd rfl hlast
  · simp [hzero]

theorem ofText_text {x : Decimal} (hx : x.isFinite = true) : ofText x.text = .ok x.plainZero :=
  ofText_textWith textLayout false hx

end Decimal

/-! ### Fields of texts -/

namespace Numeral

theorem not_isBlank_of_isDecimalDigit {c : Char} (hc : isDecimalDigit c = true) :
    Text.isBlank c = false := by
  refine Hash.not_isBlank_of_isDigit ?_
  simp only [isDecimalDigit, isDigit, digitValue?] at hc ⊢
  split_ifs at hc ⊢ <;> first | rfl | omega

theorem trim_intText (i : ℤ) : Text.trim (intText i).toList = (intText i).toList := by
  have hdigits : ∀ c ∈ toDigits 10 i.natAbs, Text.isBlank c = false := by
    intro c hc
    have hall := (all_toDigitsOnto (by decide : 2 ≤ 10) (by decide) i.natAbs [] rfl).1
    exact not_isBlank_of_isDecimalDigit (List.all_eq_true.mp hall c hc)
  refine Text.trim_of_no_blank ?_
  rw [intText, natText]
  split
  · simp only [String.toList_append, String.toList_ofList]
    intro c hc
    rcases List.mem_append.mp hc with hsign | hdigit
    · obtain rfl : c = '-' := by simpa using hsign
      decide
    · exact hdigits c hdigit
  · rw [String.toList_ofList]
    exact hdigits

end Numeral

namespace Value

theorem toDecimal_text {x : Decimal} (hx : x.isFinite = true) (field : Text) :
    (Value.string x.text).toDecimal field = .ok x.plainZero := by
  rw [toDecimal, readDecimal, Decimal.ofText_text hx]
  exact if_pos (Decimal.isFinite_plainZero hx)

theorem toInteger_intText (i : ℤ) (field : Text) :
    (Value.string (Numeral.intText i)).toInteger field = .ok i := by
  rw [toInteger, Text.chars_ofString, Numeral.trim_intText, Numeral.readInt?_intText]

end Value

end AngleSeries
