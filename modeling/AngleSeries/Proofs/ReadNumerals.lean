import AngleSeries.Double.Reading
import AngleSeries.Proofs.BinaryRounding
import AngleSeries.Proofs.DecimalTexts

/-!
# Reading numerals

Which texts are numerals, and which rational number each of them denotes, is said by a grammar
without reference to a reader. A numeral is read as the number nearest to what it denotes, and of
the other texts only a blank one is read as a finite number, namely as zero.
-/

namespace AngleSeries

open Numeral

/-! ### The grammar -/

/-- At least one digit of the base, and the number that the digits write. -/
def IsNatural (base : ℕ) (text : List Char) (n : ℕ) : Prop :=
  text ≠ [] ∧ text.all (isDigit base) = true ∧ n = ofDigits base text

/-- A magnitude behind a sign or without one. -/
inductive Signed {α : Type} [Neg α] (Magnitude : List Char → α → Prop) : List Char → α → Prop
  | plain {text : List Char} {value : α} : Magnitude text value → Signed Magnitude text value
  | plus {text : List Char} {value : α} :
      Magnitude text value → Signed Magnitude ('+' :: text) value
  | minus {text : List Char} {value : α} :
      Magnitude text value → Signed Magnitude ('-' :: text) (-value)

/-- Decimal digits, at least one, with a point before, behind or among them or without one. -/
inductive IsMantissa : List Char → ℚ → Prop
  | whole {digits : List Char} {n : ℕ} : IsNatural 10 digits n → IsMantissa digits n
  | pointed {whole fraction : List Char} {n : ℕ} : IsNatural 10 (whole ++ fraction) n →
      IsMantissa (whole ++ '.' :: fraction) (n / 10 ^ fraction.length)

def IsMagnitude (digits : List Char) (value : ℤ) : Prop :=
  ∃ n : ℕ, IsNatural 10 digits n ∧ value = n

/-- A mark and an integer, or nothing. -/
inductive IsExponent : List Char → ℤ → Prop
  | absent : IsExponent [] 0
  | marked {mark : Char} {text : List Char} {k : ℤ} : mark = 'e' ∨ mark = 'E' →
      Signed IsMagnitude text k → IsExponent (mark :: text) k

inductive IsDecimal : List Char → ℚ → Prop
  | scaled {mantissa tail : List Char} {m : ℚ} {k : ℤ} :
      IsMantissa mantissa m → IsExponent tail k → IsDecimal (mantissa ++ tail) (m * 10 ^ k)

/-- The letter that announces a base. -/
inductive Announces : Char → ℕ → Prop
  | hexadecimal {mark : Char} : mark = 'x' ∨ mark = 'X' → Announces mark 16
  | octal {mark : Char} : mark = 'o' ∨ mark = 'O' → Announces mark 8
  | binary {mark : Char} : mark = 'b' ∨ mark = 'B' → Announces mark 2

/-- **Numerals** and what they denote: decimals with an optional sign, and naturals in an announced
base without a sign. The word for infinity denotes no rational number. -/
inductive IsNumeral : List Char → ℚ → Prop
  | decimal {text : List Char} {q : ℚ} : Signed IsDecimal text q → IsNumeral text q
  | announced {mark : Char} {base n : ℕ} {digits : List Char} : Announces mark base →
      IsNatural base digits n → IsNumeral ('0' :: mark :: digits) n

/-! ### Signs -/

def unsign (text : List Char) : Bool × List Char :=
  match text with
  | '-' :: rest => (true, rest)
  | '+' :: rest => (false, rest)
  | _ => (false, text)

section Signs

variable {α : Type} [Neg α] {Magnitude : List Char → α → Prop} {text : List Char} {value : α}

theorem unsign_of_head {c : Char} {rest : List Char} (hminus : c ≠ '-') (hplus : c ≠ '+') :
    unsign (c :: rest) = (false, c :: rest) := by
  unfold unsign
  split
  case h_1 heq => exact absurd (List.cons.inj heq).1 hminus
  case h_2 heq => exact absurd (List.cons.inj heq).1 hplus
  case h_3 => rfl

/-- A sign can be told apart from a magnitude that begins with none. -/
theorem signed_iff (hplain : ∀ text value, Magnitude text value → unsign text = (false, text)) :
    Signed Magnitude text value ↔ ∃ magnitude, Magnitude (unsign text).2 magnitude
      ∧ value = if (unsign text).1 then -magnitude else magnitude := by
  constructor
  · intro hsigned
    cases hsigned with
    | plain hmagnitude =>
        rw [hplain _ _ hmagnitude]
        exact ⟨value, hmagnitude, rfl⟩
    | plus hmagnitude => exact ⟨value, hmagnitude, rfl⟩
    | minus hmagnitude => exact ⟨_, hmagnitude, rfl⟩
  · rintro ⟨magnitude, hmagnitude, rfl⟩
    generalize hparts : unsign text = parts at hmagnitude ⊢
    unfold unsign at hparts
    split at hparts
    case h_1 rest =>
      subst hparts
      exact .minus hmagnitude
    case h_2 rest =>
      subst hparts
      exact .plus hmagnitude
    case h_3 =>
      subst hparts
      exact .plain hmagnitude

end Signs

section Digits

variable {digits rest : List Char} {n : ℕ}

theorem isDecimalDigit_ne {c d : Char} (hc : isDecimalDigit c = true)
    (hd : isDecimalDigit d = false) : c ≠ d := by
  rintro rfl
  rw [hc] at hd
  cases hd

theorem unsign_of_isNatural (hdigits : IsNatural 10 digits n) :
    unsign digits = (false, digits) := by
  obtain ⟨hne, hall, -⟩ := hdigits
  obtain ⟨c, rest, rfl⟩ := List.exists_cons_of_ne_nil hne
  rw [List.all_cons, Bool.and_eq_true] at hall
  exact unsign_of_head (isDecimalDigit_ne hall.1 (by decide)) (isDecimalDigit_ne hall.1 (by decide))

theorem readInt?_eq_some_iff {text : List Char} {k : ℤ} :
    readInt? text = some k ↔ Signed IsMagnitude text k := by
  have hread : readInt? text =
      if (unsign text).2.isEmpty || !(unsign text).2.all isDecimalDigit then none
      else some (if (unsign text).1 then -((ofDigits 10 (unsign text).2 : ℕ) : ℤ)
        else (ofDigits 10 (unsign text).2 : ℕ)) := rfl
  rw [signed_iff fun _ _ ⟨_, hdigits, _⟩ => unsign_of_isNatural hdigits, hread]
  constructor
  · intro hsome
    split at hsome
    case isTrue => cases hsome
    case isFalse hdigits =>
      rw [Bool.or_eq_true, not_or, Bool.not_eq_true, List.isEmpty_eq_false_iff, Bool.not_eq_true,
        Bool.not_eq_false'] at hdigits
      exact ⟨_, ⟨_, ⟨hdigits.1, hdigits.2, rfl⟩, rfl⟩, (Option.some.inj hsome).symm⟩
  · rintro ⟨magnitude, ⟨n, ⟨hne, hall, rfl⟩, rfl⟩, rfl⟩
    rw [if_neg]
    rw [Bool.or_eq_true, not_or, Bool.not_eq_true, List.isEmpty_eq_false_iff, Bool.not_eq_true,
      Bool.not_eq_false']
    exact ⟨hne, hall⟩

end Digits

/-! ### Decimals -/

namespace Literal

def value (literal : Literal) : ℚ :=
  literal.coefficient * 10 ^ literal.scale

section Parts

variable {text whole fraction tail : List Char} {literal : Literal} {k : ℤ} {q : ℚ}

theorem withExponent?_eq_some_iff : withExponent? whole fraction tail = some literal
    ↔ ∃ k, IsExponent tail k ∧ literal = ⟨whole, fraction, k⟩ := by
  constructor
  · intro hsome
    cases tail with
    | nil => exact ⟨0, .absent, (Option.some.inj hsome).symm⟩
    | cons mark rest =>
        rw [withExponent?] at hsome
        split at hsome
        case isFalse => cases hsome
        case isTrue hmark =>
          obtain ⟨k, hk, rfl⟩ := Option.map_eq_some_iff.mp hsome
          exact ⟨k, .marked hmark (readInt?_eq_some_iff.mp hk), rfl⟩
  · rintro ⟨k, htail, rfl⟩
    cases htail with
    | absent => rfl
    | marked hmark hk => rw [withExponent?, if_pos hmark, readInt?_eq_some_iff.mpr hk]; rfl

/-- Neither a digit nor a point begins an exponent. -/
theorem stops_of_isExponent (htail : IsExponent tail k) :
    Stops isDecimalDigit tail ∧ readFraction tail = ([], tail) := by
  cases htail with
  | absent => exact ⟨stops_nil, rfl⟩
  | marked hmark hk =>
      rcases hmark with rfl | rfl
      · exact ⟨stops_cons (by decide), rfl⟩
      · exact ⟨stops_cons (by decide), rfl⟩

theorem read?_of_isDecimal (hdecimal : IsDecimal text q) :
    ∃ literal, read? text = some literal ∧ literal.value = q := by
  obtain @⟨mantissa, tail, m, k, hmantissa, htail⟩ := hdecimal
  obtain ⟨hstops, hfraction⟩ := stops_of_isExponent htail
  cases hmantissa with
  | whole hdigits =>
      obtain ⟨hne, hall, rfl⟩ := hdigits
      have hspan : spanDigits (mantissa ++ tail) = (mantissa, tail) := span_append hall hstops
      refine ⟨⟨mantissa, [], k⟩, ?_, ?_⟩
      · rw [read?_eq, hspan, hfraction, List.isEmpty_eq_false_iff.mpr hne, Bool.false_and,
          if_neg Bool.false_ne_true]
        exact withExponent?_eq_some_iff.mpr ⟨k, htail, rfl⟩
      · simp [value, coefficient, scale]
  | @pointed whole fraction n hdigits =>
      obtain ⟨hne, hall, rfl⟩ := hdigits
      rw [List.all_append, Bool.and_eq_true] at hall
      have hspan : spanDigits (whole ++ '.' :: fraction ++ tail)
          = (whole, '.' :: (fraction ++ tail)) := by
        rw [List.append_assoc, List.cons_append]
        exact span_append hall.1 (stops_cons (by decide))
      have hpoint : readFraction ('.' :: (fraction ++ tail)) = (fraction, tail) :=
        span_append hall.2 hstops
      have hsome : (whole.isEmpty && fraction.isEmpty) = false := by
        simpa [Bool.and_eq_false_iff, imp_iff_not_or] using hne
      refine ⟨⟨whole, fraction, k⟩, ?_, ?_⟩
      · rw [read?_eq, hspan, hpoint, hsome, if_neg Bool.false_ne_true]
        exact withExponent?_eq_some_iff.mpr ⟨k, htail, rfl⟩
      · rw [value, coefficient, scale, zpow_sub₀ (by norm_num), zpow_natCast]
        ring

theorem spanDigits_spec (text : List Char) :
    text = (spanDigits text).1 ++ (spanDigits text).2
      ∧ (spanDigits text).1.all isDecimalDigit = true := by
  rw [spanDigits, List.span_eq_takeWhile_dropWhile]
  exact ⟨List.takeWhile_append_dropWhile.symm, List.all_takeWhile⟩

/-- A literal that was read is spelled out by the text. -/
theorem isDecimal_of_read? (hread : read? text = some literal) : IsDecimal text literal.value := by
  obtain ⟨htext, hwhole⟩ := spanDigits_spec text
  rw [read?_eq] at hread
  generalize hafter : (spanDigits text).2 = after at htext hread
  generalize (spanDigits text).1 = whole at htext hwhole hread
  split at hread
  case isTrue => cases hread
  case isFalse hsome =>
    obtain ⟨k, htail, rfl⟩ := withExponent?_eq_some_iff.mp hread
    by_cases hpoint : ∃ rest, after = '.' :: rest
    -- Behind a point there is a second row of digits, possibly an empty one.
    · obtain ⟨rest, rfl⟩ := hpoint
      obtain ⟨hrest, hfraction⟩ := spanDigits_spec rest
      change IsExponent (spanDigits rest).2 k at htail
      change ¬(whole.isEmpty && (spanDigits rest).1.isEmpty) = true at hsome
      change IsDecimal text (value ⟨whole, (spanDigits rest).1, k⟩)
      generalize (spanDigits rest).1 = fraction at *
      generalize (spanDigits rest).2 = tail at *
      have hdigits : IsNatural 10 (whole ++ fraction) (ofDigits 10 (whole ++ fraction)) := by
        refine ⟨by simpa [imp_iff_not_or] using hsome, ?_, rfl⟩
        rw [List.all_append, Bool.and_eq_true]
        exact ⟨hwhole, hfraction⟩
      have hvalue : value ⟨whole, fraction, k⟩
          = ofDigits 10 (whole ++ fraction) / 10 ^ fraction.length * 10 ^ k := by
        rw [value, coefficient, scale, zpow_sub₀ (by norm_num), zpow_natCast]
        ring
      rw [htext, hrest, hvalue, ← List.cons_append, ← List.append_assoc]
      exact .scaled (.pointed hdigits) htail
    · have hnone : readFraction after = ([], after) := by
        unfold readFraction
        split
        case h_1 rest => exact absurd ⟨rest, rfl⟩ hpoint
        case h_2 => rfl
      rw [hnone] at htail hsome ⊢
      have hdigits : IsNatural 10 whole (ofDigits 10 whole) :=
        ⟨by simpa using hsome, hwhole, rfl⟩
      have hvalue : value ⟨whole, [], k⟩ = ofDigits 10 whole * 10 ^ k := by
        simp [value, coefficient, scale]
      rw [htext, hvalue]
      exact .scaled (.whole hdigits) htail

end Parts

end Literal

section Numerals

variable {text digits : List Char} {q r : ℚ}

theorem isDecimal_unique (hq : IsDecimal text q) (hr : IsDecimal text r) : q = r := by
  obtain ⟨literal, hread, rfl⟩ := Literal.read?_of_isDecimal hq
  obtain ⟨other, hother, rfl⟩ := Literal.read?_of_isDecimal hr
  rw [hread] at hother
  cases hother
  rfl

theorem unsign_of_isDecimal (hdecimal : IsDecimal text q) : unsign text = (false, text) := by
  obtain @⟨mantissa, tail, m, k, hmantissa, htail⟩ := hdecimal
  -- The text begins with a digit or with the point.
  have hdigit {c : Char} {rest : List Char} (hc : isDecimalDigit c = true) :
      unsign (c :: rest) = (false, c :: rest) :=
    unsign_of_head (isDecimalDigit_ne hc (by decide)) (isDecimalDigit_ne hc (by decide))
  cases hmantissa with
  | whole hdigits =>
      obtain ⟨hne, hall, -⟩ := hdigits
      obtain ⟨c, rest, rfl⟩ := List.exists_cons_of_ne_nil hne
      rw [List.all_cons, Bool.and_eq_true] at hall
      exact hdigit hall.1
  | @pointed whole fraction n hdigits =>
      obtain ⟨-, hall, -⟩ := hdigits
      cases whole with
      | nil => rfl
      | cons c rest =>
          rw [List.cons_append, List.all_cons, Bool.and_eq_true] at hall
          exact hdigit hall.1

theorem signed_isDecimal_iff : Signed IsDecimal text q
    ↔ ∃ magnitude, IsDecimal (unsign text).2 magnitude
      ∧ q = if (unsign text).1 then -magnitude else magnitude :=
  signed_iff fun _ _ => unsign_of_isDecimal

theorem announces_iff {mark : Char} {base : ℕ} :
    Announces mark base ↔ Double.radix? mark = some base := by
  constructor
  · rintro (hmark | hmark | hmark) <;> rcases hmark with rfl | rfl <;> rfl
  · intro hradix
    unfold Double.radix? at hradix
    split at hradix
    case isTrue hmark =>
      cases hradix
      exact .hexadecimal hmark
    case isFalse =>
      split at hradix
      case isTrue hmark =>
        cases hradix
        exact .octal hmark
      case isFalse =>
        split at hradix
        case isTrue hmark =>
          cases hradix
          exact .binary hmark
        case isFalse => cases hradix

/-- The letter of a base does not occur in a decimal. -/
theorem not_signed_of_announces {mark : Char} {base : ℕ} (hmark : Announces mark base) :
    ¬Signed IsDecimal ('0' :: mark :: digits) q := by
  intro hsigned
  obtain ⟨magnitude, hdecimal, -⟩ := signed_isDecimal_iff.mp hsigned
  obtain ⟨literal, hread, -⟩ := Literal.read?_of_isDecimal hdecimal
  have hnone : Literal.read? ('0' :: mark :: digits) = none := by
    rcases hmark with hmark | hmark | hmark <;> rcases hmark with rfl | rfl <;> rfl
  have hunsigned : unsign ('0' :: mark :: digits) = (false, '0' :: mark :: digits) :=
    unsign_of_head (by decide) (by decide)
  rw [hunsigned, hnone] at hread
  cases hread

theorem not_signed_nil : ¬Signed IsDecimal [] q := by
  intro hsigned
  obtain ⟨magnitude, hdecimal, -⟩ := signed_isDecimal_iff.mp hsigned
  obtain ⟨literal, hread, -⟩ := Literal.read?_of_isDecimal hdecimal
  cases hread

theorem IsNumeral.ne_nil (hnumeral : IsNumeral text q) : text ≠ [] := by
  rintro rfl
  cases hnumeral with
  | decimal hsigned => exact not_signed_nil hsigned

theorem isNumeral_unique (hq : IsNumeral text q) (hr : IsNumeral text r) : q = r := by
  cases hq with
  | decimal hsigned =>
      cases hr with
      | decimal hsecond =>
          obtain ⟨magnitude, hdecimal, rfl⟩ := signed_isDecimal_iff.mp hsigned
          obtain ⟨other, hother, rfl⟩ := signed_isDecimal_iff.mp hsecond
          rw [isDecimal_unique hdecimal hother]
      | announced hmark hdigits => exact absurd hsigned (not_signed_of_announces hmark)
  | announced hmark hdigits =>
      cases hr with
      | decimal hsigned => exact absurd hsigned (not_signed_of_announces hmark)
      | announced hother hothers =>
          rw [announces_iff] at hmark hother
          obtain rfl := Option.some.inj (hmark.symm.trans hother)
          rw [hdigits.2.2, hothers.2.2]

end Numerals

/-! ### Reading -/

namespace Double

section Texts

variable {text : List Char} {q : ℚ}

theorem ofSigned_eq (text : List Char) : ofSigned text =
    if (unsign text).2 = "Infinity".toList then .infinite (unsign text).1
    else ((Literal.read? (unsign text).2).map (ofLiteral (unsign text).1)).getD .nan := rfl

theorem isNearest_ofSigned (hsigned : Signed IsDecimal text q) : (ofSigned text).IsNearest q := by
  obtain ⟨magnitude, hdecimal, rfl⟩ := signed_isDecimal_iff.mp hsigned
  obtain ⟨literal, hread, rfl⟩ := Literal.read?_of_isDecimal hdecimal
  have hword : (unsign text).2 ≠ "Infinity".toList := by
    intro hinfinity
    rw [hinfinity] at hread
    cases hread
  rw [ofSigned_eq, if_neg hword, hread, Option.map_some, Option.getD_some]
  exact isNearest_ofDecimal (unsign text).1 literal.coefficient literal.scale

theorem signed_of_isFinite (hfinite : (ofSigned text).isFinite = true) :
    ∃ q, Signed IsDecimal text q := by
  rw [ofSigned_eq] at hfinite
  split at hfinite
  case isTrue => cases hfinite
  case isFalse =>
    cases hread : Literal.read? (unsign text).2 with
    | none =>
        rw [hread] at hfinite
        cases hfinite
    | some literal =>
        exact ⟨_, signed_isDecimal_iff.mpr ⟨_, Literal.isDecimal_of_read? hread, rfl⟩⟩

theorem isNearest_ofRadix {base n : ℕ} {digits : List Char} (hdigits : IsNatural base digits n) :
    (ofRadix base digits).IsNearest n := by
  obtain ⟨hne, hall, rfl⟩ := hdigits
  rw [ofRadix, List.isEmpty_eq_false_iff.mpr hne, hall, Bool.not_true, Bool.or_self,
    if_neg Bool.false_ne_true]
  exact isNearest_ofNat _

theorem isNatural_of_isFinite {base : ℕ} {digits : List Char}
    (hfinite : (ofRadix base digits).isFinite = true) :
    IsNatural base digits (ofDigits base digits) := by
  rw [ofRadix] at hfinite
  split at hfinite
  case isTrue => cases hfinite
  case isFalse hdigits =>
    rw [Bool.or_eq_true, not_or, Bool.not_eq_true, List.isEmpty_eq_false_iff, Bool.not_eq_true,
      Bool.not_eq_false'] at hdigits
    exact ⟨hdigits.1, hdigits.2, rfl⟩

end Texts

section Trimmed

variable {text : String} {q : ℚ}

/-- **A numeral is read as the number nearest to what it denotes.** -/
theorem isNearest_ofText (hnumeral : IsNumeral (Text.trim text.toList) q) :
    (ofText text).IsNearest q := by
  unfold ofText
  generalize Text.trim text.toList = body at hnumeral
  cases hnumeral with
  | announced hmark hdigits =>
      simp only [announces_iff.mp hmark]
      exact isNearest_ofRadix hdigits
  | decimal hsigned =>
      split
      case h_1 => exact absurd hsigned not_signed_nil
      case h_2 mark digits =>
        split
        case h_1 base hradix =>
          exact absurd hsigned (not_signed_of_announces (announces_iff.mpr hradix))
        case h_2 => exact isNearest_ofSigned hsigned
      case h_3 => exact isNearest_ofSigned hsigned

theorem ofText_of_blank (hblank : Text.trim text.toList = []) : ofText text = signedZero false := by
  rw [ofText, hblank]

/-- A text that is read as a finite number is blank or a numeral. -/
theorem blank_or_isNumeral (hfinite : (ofText text).isFinite = true) :
    Text.trim text.toList = [] ∨ ∃ q, IsNumeral (Text.trim text.toList) q := by
  unfold ofText at hfinite
  generalize Text.trim text.toList = body at hfinite ⊢
  split at hfinite
  case h_1 => exact .inl rfl
  case h_2 mark digits =>
    split at hfinite
    case h_1 base hradix =>
      exact .inr ⟨_, .announced (announces_iff.mpr hradix) (isNatural_of_isFinite hfinite)⟩
    case h_2 =>
      obtain ⟨q, hsigned⟩ := signed_of_isFinite hfinite
      exact .inr ⟨q, .decimal hsigned⟩
  case h_3 =>
    obtain ⟨q, hsigned⟩ := signed_of_isFinite hfinite
    exact .inr ⟨q, .decimal hsigned⟩

end Trimmed

end Double

end AngleSeries
