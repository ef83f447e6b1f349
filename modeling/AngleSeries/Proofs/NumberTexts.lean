import AngleSeries.Canonical
import AngleSeries.Json.Parser
import AngleSeries.Proofs.HashTexts
import AngleSeries.Proofs.ShortestDigits

/-!
# Number texts

A number text is digits, perhaps a point with digits after it, perhaps an exponent. Whatever the
layout puts before and after the point, the coefficient and the exponent together denote the number
that was to be written, so a strict reader gets back the number.
-/

namespace AngleSeries

/-- Where a run of what `p` allows comes to its end. -/
def Stops {α : Type} (p : α → Bool) (rest : List α) : Prop :=
  ∀ a ∈ rest.head?, p a = false

section Runs

variable {α : Type} {p : α → Bool}

theorem stops_nil : Stops p [] := by
  intro a ha
  cases ha

theorem stops_cons {a : α} {rest : List α} (ha : p a = false) : Stops p (a :: rest) := by
  intro b hb
  cases hb
  exact ha

theorem Stops.mono {q : α → Bool} {rest : List α} (hstops : Stops p rest)
    (hle : ∀ a, q a = true → p a = true) : Stops q rest := by
  intro a ha
  by_contra hcontra
  have hp := hle a (Bool.eq_true_of_not_eq_false hcontra)
  rw [hstops a ha] at hp
  cases hp

theorem span_append {front rest : List α} (hfront : front.all p = true) (hrest : Stops p rest) :
    (front ++ rest).span p = (front, rest) := by
  have hall : ∀ a ∈ front, p a = true := List.all_eq_true.mp hfront
  have hstop : rest.takeWhile p = [] ∧ rest.dropWhile p = rest := by
    cases rest with
    | nil => exact ⟨rfl, rfl⟩
    | cons a rest =>
        have ha : ¬ p a = true := by
          rw [hrest a rfl]
          exact Bool.false_ne_true
        exact ⟨List.takeWhile_cons_of_neg ha, List.dropWhile_cons_of_neg ha⟩
  rw [List.span_eq_takeWhile_dropWhile, List.takeWhile_append_of_pos hall,
    List.dropWhile_append_of_pos hall, hstop.1, hstop.2, List.append_nil]

end Runs

namespace Numeral

variable {base : ℕ}

/-- A positive number does not begin with a zero. -/
theorem head_toDigitsOnto (hlow : 2 ≤ base) (hbase : base ≤ 16) {n : ℕ} (hn : n ≠ 0)
    (written : List Char) :
    ∃ c rest, toDigitsOnto base n written = c :: rest ∧ c ≠ '0' := by
  fun_induction toDigitsOnto base n written with
  | case1 n written hlarge ih =>
      refine ih ?_
      have hquotient := Nat.div_pos hlarge.2 (by omega)
      omega
  | case2 n written hsmall =>
      refine ⟨digitChar n, written, rfl, fun hzero => hn ?_⟩
      have hvalue := digitValue?_digitChar hbase (show n < base by omega)
      have hzeroValue := digitValue?_digitChar hbase (show 0 < base by omega)
      rw [hzero] at hvalue
      exact Option.some.inj (hvalue.symm.trans hzeroValue)

/-- Zeros behind multiply by the base. -/
theorem ofDigits_append_replicate (digits : List Char) (count : ℕ) :
    ofDigits base (digits ++ List.replicate count '0') = ofDigits base digits * base ^ count := by
  induction count with
  | zero => rw [List.replicate_zero, List.append_nil, pow_zero, mul_one]
  | succ count ih =>
      have hlast : ofDigits base (digits ++ List.replicate count '0' ++ ['0'])
          = ofDigits base (digits ++ List.replicate count '0') * base + ofDigits base ['0'] := by
        simp only [ofDigits, List.foldl_append, List.foldl_cons, List.foldl_nil, zero_mul, zero_add]
      have hzero : ofDigits base ['0'] = 0 := ofDigits_zero_cons []
      rw [List.replicate_succ', ← List.append_assoc, hlast, ih, hzero, add_zero, pow_succ, mul_assoc]

/-- The digits of a positive number, as all that follows needs them. -/
theorem toDigits_spec {n : ℕ} (hn : n ≠ 0) :
    (toDigits 10 n).all isDecimalDigit = true ∧ ofDigits 10 (toDigits 10 n) = n
      ∧ ∃ c rest, toDigits 10 n = c :: rest ∧ c ≠ '0' :=
  ⟨(all_toDigitsOnto (by decide) (by decide) n [] rfl).1, ofDigits_toDigits (by decide) (by decide) n,
    head_toDigitsOnto (by decide) (by decide) hn []⟩

/-! ### Integers -/

section Integers

variable {digits : List Char} (hall : digits.all isDecimalDigit = true) (hne : digits ≠ [])

include hall hne

theorem readInt?_digits : readInt? digits = some ((ofDigits 10 digits : ℕ) : ℤ) := by
  cases digits with
  | nil => exact absurd rfl hne
  | cons c rest =>
      have hsign : c ≠ '-' ∧ c ≠ '+' := by
        rw [List.all_cons, Bool.and_eq_true] at hall
        constructor <;> rintro rfl <;> exact absurd hall.1 (by decide)
      simp only [readInt?]
      split
      case h_1 heq => exact absurd (List.cons.inj heq).1 hsign.1
      case h_2 heq => exact absurd (List.cons.inj heq).1 hsign.2
      case h_3 => simp [hall]

theorem readInt?_minus : readInt? ('-' :: digits) = some (-((ofDigits 10 digits : ℕ) : ℤ)) := by
  simp only [readInt?, hall, List.isEmpty_eq_false_iff.mpr hne]
  rfl

end Integers

/-- The text of an integer is read as that integer. -/
theorem readInt?_intText (i : ℤ) : readInt? (intText i).toList = some i := by
  have hdigits : (toDigits 10 i.natAbs).all isDecimalDigit = true ∧ toDigits 10 i.natAbs ≠ [] :=
    all_toDigitsOnto (by decide) (by decide) i.natAbs [] rfl
  obtain ⟨hall, hne⟩ := hdigits
  have hvalue : ofDigits 10 (toDigits 10 i.natAbs) = i.natAbs :=
    ofDigits_toDigits (by decide) (by decide) _
  by_cases hneg : i < 0
  · have htext : (intText i).toList = '-' :: toDigits 10 i.natAbs := by
      rw [intText, if_pos hneg, String.toList_append, natText, String.toList_ofList]
      simp
    rw [htext, readInt?_minus hall hne, hvalue, Option.some_inj]
    omega
  · rw [intText, if_neg hneg, natText, String.toList_ofList, readInt?_digits hall hne, hvalue,
      Option.some_inj]
    omega

theorem intText_inj {i j : ℤ} : intText i = intText j ↔ i = j := by
  refine ⟨fun htext => ?_, congrArg intText⟩
  have hread := readInt?_intText i
  rw [htext, readInt?_intText, Option.some_inj] at hread
  exact hread.symm

end Numeral

namespace Json

open Numeral

theorem readDigits?_append {digits rest : List Char} (hall : digits.all isDecimalDigit = true)
    (hne : digits ≠ []) (hrest : Stops isDecimalDigit rest) :
    readDigits? (digits ++ rest) = some (digits, rest) := by
  have hempty : digits.isEmpty = false := List.isEmpty_eq_false_iff.mpr hne
  rw [readDigits?, spanDigits, span_append hall hrest]
  simp only [hempty, Bool.false_eq_true, if_false]

theorem all_isNumberChar {digits : List Char} (hall : digits.all isDecimalDigit = true) :
    digits.all isNumberChar = true := by
  refine List.all_eq_true.mpr fun c hc => ?_
  rw [isNumberChar, List.all_eq_true.mp hall c hc]
  rfl

/-- Digits as they may stand before the point. -/
def IsWhole (digits : List Char) : Prop :=
  digits = ['0'] ∨ digits.all isDecimalDigit = true ∧ ∃ c rest, digits = c :: rest ∧ c ≠ '0'

theorem readWhole?_append {whole rest : List Char} (hwhole : IsWhole whole)
    (hrest : Stops isDecimalDigit rest) : readWhole? (whole ++ rest) = some (whole, rest) := by
  rcases hwhole with rfl | ⟨hall, c, digits, rfl, hc⟩
  · rfl
  · rw [List.cons_append, readWhole?]
    · exact readDigits?_append hall (List.cons_ne_nil _ _) hrest
    · intro tail htail
      exact hc (List.cons.inj htail).1

/-- The point with the digits after it, if there are any. -/
def point (fraction : List Char) : List Char :=
  if fraction.isEmpty then [] else '.' :: fraction

theorem point_of_ne_nil {fraction : List Char} (hne : fraction ≠ []) :
    point fraction = '.' :: fraction := by
  rw [point, List.isEmpty_eq_false_iff.mpr hne, if_neg Bool.false_ne_true]

theorem readFraction?_append {fraction rest : List Char}
    (hall : fraction.all isDecimalDigit = true) (hrest : Stops isDecimalDigit rest)
    (hpoint : Stops (· == '.') rest) :
    readFraction? (point fraction ++ rest) = some (fraction, rest) := by
  unfold point
  split
  case isTrue hempty =>
    rw [List.isEmpty_iff.mp hempty, List.nil_append, readFraction?]
    intro tail htail
    subst htail
    have hcontra := hpoint '.' rfl
    cases hcontra
  case isFalse hne =>
    rw [List.cons_append, readFraction?]
    exact readDigits?_append hall (by rwa [List.isEmpty_iff] at hne) hrest

/-- The parts of a number text without its sign. -/
structure Spelling where
  literal : Literal
  /-- The exponent as it is written, with its mark. -/
  tail : List Char
  whole : IsWhole literal.whole
  fraction : literal.fraction.all isDecimalDigit = true
  marked : Stops (fun c => isDecimalDigit c || c == '.') tail
  exponent : readExponent? tail = some (literal.exponent, [])
  chars : tail.all isNumberChar = true

namespace Spelling

def text (spelling : Spelling) : List Char :=
  spelling.literal.whole ++ (point spelling.literal.fraction ++ spelling.tail)

/-- A spelling without an exponent. -/
def plain (whole fraction : List Char) (hwhole : IsWhole whole)
    (hfraction : fraction.all isDecimalDigit = true) : Spelling :=
  ⟨⟨whole, fraction, 0⟩, [], hwhole, hfraction, stops_nil, rfl, rfl⟩

theorem plain_text {whole fraction : List Char} (hwhole : IsWhole whole)
    (hfraction : fraction.all isDecimalDigit = true) :
    (plain whole fraction hwhole hfraction).text = whole ++ point fraction := by
  rw [text, plain, List.append_nil]

theorem plain_literal {whole fraction : List Char} (hwhole : IsWhole whole)
    (hfraction : fraction.all isDecimalDigit = true) :
    (plain whole fraction hwhole hfraction).literal = ⟨whole, fraction, 0⟩ := rfl

variable (spelling : Spelling)

theorem stops_tail : Stops isDecimalDigit spelling.tail :=
  spelling.marked.mono fun c hc => by rw [hc, Bool.true_or]

theorem stops_point : Stops isDecimalDigit (point spelling.literal.fraction ++ spelling.tail) := by
  unfold point
  split
  · exact spelling.stops_tail
  · exact stops_cons (by decide)

/-- The parts are found again behind any sign. -/
theorem read_text (negative : Bool) : (do
    let (whole, rest) ← readWhole? spelling.text
    let (fraction, rest) ← readFraction? rest
    let (exponent, rest) ← readExponent? rest
    if rest.isEmpty then some (Double.ofLiteral negative ⟨whole, fraction, exponent⟩) else none)
      = some (Double.ofLiteral negative spelling.literal) := by
  have hpoint : Stops (· == '.') spelling.tail :=
    spelling.marked.mono fun c hc => by rw [hc, Bool.or_true]
  rw [text, readWhole?_append spelling.whole spelling.stops_point, Option.bind_eq_bind,
    Option.bind_some]
  dsimp only
  rw [readFraction?_append spelling.fraction spelling.stops_tail hpoint, Option.bind_eq_bind,
    Option.bind_some]
  dsimp only
  rw [spelling.exponent]
  rfl

theorem number?_text (negative : Bool) :
    number? (if negative then '-' :: spelling.text else spelling.text)
      = some (Double.ofLiteral negative spelling.literal) := by
  cases negative with
  | true => exact spelling.read_text true
  | false =>
      have hsign : ∀ rest, spelling.text ≠ '-' :: rest := by
        intro rest htext
        rcases spelling.whole with hzero | ⟨hall, c, digits, hdigits, -⟩
        · rw [text, hzero] at htext
          cases (List.cons.inj htext).1
        · rw [text, hdigits] at htext
          have hc : c = '-' := (List.cons.inj htext).1
          rw [hdigits, hc] at hall
          cases hall
      simp only [Bool.false_eq_true, if_false]
      unfold number?
      split
      case h_1 pair negative body hpair =>
        split at hpair
        case h_1 rest htext => exact absurd htext (hsign rest)
        case h_2 =>
          cases hpair
          exact spelling.read_text false

theorem all_text : spelling.text.all isNumberChar = true := by
  have hwhole : spelling.literal.whole.all isNumberChar = true := by
    rcases spelling.whole with hzero | ⟨hall, -⟩
    · rw [hzero]
      rfl
    · exact all_isNumberChar hall
  rw [text, List.all_append, List.all_append, hwhole, spelling.chars, point]
  split
  · rfl
  · rw [List.all_cons, all_isNumberChar spelling.fraction]
    rfl

end Spelling

end Json

namespace Layout

open Numeral Json

/-- The exponent of the scientific notation, with its mark. -/
def exponentText (marksPlus : Bool) (lead : Int) : List Char :=
  'e' :: ((if lead < 0 then ['-'] else if marksPlus then ['+'] else []) ++ toDigits 10 lead.natAbs)

theorem readExponent?_exponentText (marksPlus : Bool) (lead : Int) :
    readExponent? (exponentText marksPlus lead) = some (lead, []) := by
  obtain ⟨hall, hne⟩ := all_toDigitsOnto (by decide : 2 ≤ 10) (by decide) lead.natAbs [] rfl
  have hread : readDigits? (toDigits 10 lead.natAbs) = some (toDigits 10 lead.natAbs, []) := by
    have happend := readDigits?_append hall hne stops_nil
    rwa [List.append_nil] at happend
  have hvalue : ofDigits 10 (toDigits 10 lead.natAbs) = lead.natAbs :=
    ofDigits_toDigits (by decide) (by decide) _
  by_cases hnegative : lead < 0
  · rw [exponentText, if_pos hnegative, List.cons_append, List.nil_append, readExponent?,
      if_pos (.inl rfl), hread, Option.bind_eq_bind, Option.bind_some]
    simp only [hvalue, if_true]
    congr 2
    omega
  · have hlead : (lead.natAbs : Int) = lead := by omega
    rw [exponentText, if_neg hnegative]
    cases marksPlus with
    | true =>
        rw [if_pos rfl, List.cons_append, List.nil_append, readExponent?, if_pos (.inl rfl), hread,
          Option.bind_eq_bind, Option.bind_some]
        simp only [hvalue, hlead, Bool.false_eq_true, if_false]
    | false =>
        have hsign : ∀ {mark : Char} {rest : List Char}, isDecimalDigit mark = false →
            toDigits 10 lead.natAbs ≠ mark :: rest := by
          intro mark rest hmark hdigits
          rw [toDigits] at hdigits
          rw [hdigits, List.all_cons, Bool.and_eq_true] at hall
          exact absurd (hmark.symm.trans hall.1) Bool.false_ne_true
        rw [if_neg Bool.false_ne_true, List.nil_append, readExponent?, if_pos (.inl rfl), hread,
          Option.bind_eq_bind, Option.bind_some]
        · simp only [hvalue, hlead, Bool.false_eq_true, if_false]
        · intro rest
          exact hsign (by decide)
        · intro rest
          exact hsign (by decide)

theorem all_exponentText (marksPlus : Bool) (lead : Int) :
    (exponentText marksPlus lead).all isNumberChar = true := by
  have hdigits : (toDigits 10 lead.natAbs).all isDecimalDigit = true :=
    (all_toDigitsOnto (by decide) (by decide) lead.natAbs [] rfl).1
  rw [exponentText, List.all_cons, List.all_append, all_isNumberChar hdigits]
  split_ifs <;> rfl

/-- A spelling of the number whose digits are given and whose first digit counts `10 ^ lead`. -/
structure Spells (spelling : Spelling) (digits text : List Char) (lead : Int) : Prop where
  text : spelling.text = text
  value : ∃ k : ℕ, spelling.literal.coefficient = ofDigits 10 digits * 10 ^ k
    ∧ spelling.literal.scale = lead + 1 - digits.length - k

theorem all_zeros (count : ℕ) : (List.replicate count '0').all isDecimalDigit = true := by
  rw [List.all_replicate]
  simp [show isDecimalDigit '0' = true by decide]

section Digits

variable {first : Char} {rest : List Char} (hfirst : first ≠ '0')
  (hall : (first :: rest).all isDecimalDigit = true)

include hall

/-- Zeros before and after the point come before the digits. -/
theorem exists_spelling_below {lead : Int} (hlead : lead < 0) :
    ∃ spelling, Spells spelling (first :: rest)
      ('0' :: '.' :: (List.replicate (-lead - 1).toNat '0' ++ first :: rest)) lead := by
  have hfraction : (List.replicate (-lead - 1).toNat '0' ++ first :: rest).all isDecimalDigit
      = true := by
    rw [List.all_append, all_zeros, hall]
    rfl
  have hne : List.replicate (-lead - 1).toNat '0' ++ first :: rest ≠ [] :=
    List.append_ne_nil_of_right_ne_nil _ (List.cons_ne_nil _ _)
  have hwhole : IsWhole ['0'] := .inl rfl
  refine ⟨.plain ['0'] _ hwhole hfraction, ?_, 0, ?_, ?_⟩
  · rw [Spelling.plain_text, point_of_ne_nil hne]
    rfl
  · rw [Spelling.plain_literal, Literal.coefficient, pow_zero, mul_one, List.cons_append, List.nil_append,
      ofDigits_zero_cons, ofDigits_replicate_append]
  · rw [Spelling.plain_literal, Literal.scale, List.length_append, List.length_replicate]
    push_cast
    omega

include hfirst

/-- Zeros after the digits are counted by the power of ten that is left over. -/
theorem exists_spelling_whole {lead : Int} (hlead : 0 ≤ lead)
    (hshort : (first :: rest).length ≤ lead.toNat + 1) :
    ∃ spelling, Spells spelling (first :: rest)
      (first :: rest ++ List.replicate (lead.toNat + 1 - (first :: rest).length) '0') lead := by
  have hwhole : IsWhole
      (first :: rest ++ List.replicate (lead.toNat + 1 - (first :: rest).length) '0') := by
    refine .inr ⟨?_, first, _, rfl, hfirst⟩
    rw [List.all_append, all_zeros, hall]
    rfl
  have hfraction : ([] : List Char).all isDecimalDigit = true := rfl
  refine ⟨.plain _ [] hwhole hfraction, ?_, lead.toNat + 1 - (first :: rest).length, ?_, ?_⟩
  · exact (Spelling.plain_text hwhole hfraction).trans (List.append_nil _)
  · rw [Spelling.plain_literal, Literal.coefficient, List.append_nil, ofDigits_append_replicate]
  · rw [Spelling.plain_literal, Literal.scale, List.length_nil]
    push_cast
    omega

/-- The point stands among the digits. -/
theorem exists_spelling_pointed {lead : Int} (hlead : 0 ≤ lead)
    (hlong : lead.toNat + 1 < (first :: rest).length) :
    ∃ spelling, Spells spelling (first :: rest)
      ((first :: rest).take (lead.toNat + 1) ++ '.' :: (first :: rest).drop (lead.toNat + 1))
        lead := by
  rw [List.all_eq_true] at hall
  have hwhole : IsWhole ((first :: rest).take (lead.toNat + 1)) := by
    refine .inr ⟨?_, first, _, List.take_succ_cons, hfirst⟩
    exact List.all_eq_true.mpr fun c hc => hall c (List.mem_of_mem_take hc)
  have hfraction : ((first :: rest).drop (lead.toNat + 1)).all isDecimalDigit = true :=
    List.all_eq_true.mpr fun c hc => hall c (List.mem_of_mem_drop hc)
  have hne : (first :: rest).drop (lead.toNat + 1) ≠ [] := by
    rw [ne_eq, List.drop_eq_nil_iff]
    omega
  refine ⟨.plain _ _ hwhole hfraction, ?_, 0, ?_, ?_⟩
  · rw [Spelling.plain_text, point_of_ne_nil hne]
  · rw [Spelling.plain_literal, Literal.coefficient, List.take_append_drop, pow_zero, mul_one]
  · rw [Spelling.plain_literal, Literal.scale, List.length_drop]
    push_cast
    omega

theorem exists_spelling_positional (lead : Int) :
    ∃ spelling, Spells spelling (first :: rest) (positional (first :: rest) lead) lead := by
  rw [positional]
  split_ifs with hnegative
  · exact exists_spelling_below hall hnegative
  dsimp only
  split_ifs with hshort
  · exact exists_spelling_whole hfirst hall (not_lt.mp hnegative) hshort
  · exact exists_spelling_pointed hfirst hall (not_lt.mp hnegative) (not_le.mp hshort)

theorem exists_spelling_scientific (marksPlus : Bool) (lead : Int) :
    ∃ spelling, Spells spelling (first :: rest) (scientific marksPlus (first :: rest) lead)
      lead := by
  rw [List.all_cons, Bool.and_eq_true] at hall
  refine ⟨⟨⟨[first], rest, lead⟩, exponentText marksPlus lead, .inr ⟨?_, first, [], rfl, hfirst⟩,
    hall.2, stops_cons (by decide), readExponent?_exponentText marksPlus lead,
    all_exponentText marksPlus lead⟩, ?_, 0, ?_, ?_⟩
  · rw [List.all_cons, hall.1]
    rfl
  · cases rest <;> simp [Spelling.text, scientific, exponentText, point]
  · rw [Literal.coefficient, pow_zero, mul_one]
    rfl
  · rw [Literal.scale, List.length_cons]
    push_cast
    omega

theorem exists_spelling_write (layout : Layout) (lead : Int) :
    ∃ spelling, Spells spelling (first :: rest) (layout.write (first :: rest) lead) lead := by
  rw [write]
  split_ifs
  · exact exists_spelling_positional hfirst hall lead
  · exact exists_spelling_scientific hfirst hall layout.marksPlus lead

end Digits

/-- **What is written is a spelling of the number.** Zeros before the point stand for a power of ten
that the exponent no longer counts. -/
theorem exists_spelling_writeScaled (layout : Layout) {coefficient : ℕ} (hne : coefficient ≠ 0)
    (exponent : Int) :
    ∃ spelling : Spelling, spelling.text = layout.writeScaled coefficient exponent
      ∧ ∃ k : ℕ, spelling.literal.coefficient = coefficient * 10 ^ k
        ∧ spelling.literal.scale = exponent - k := by
  obtain ⟨hall, hvalue, first, rest, hdigits, hfirst⟩ := toDigits_spec hne
  rw [writeScaled, hdigits]
  rw [hdigits] at hall hvalue
  obtain ⟨spelling, htext, k, hcoefficient, hscale⟩ := exists_spelling_write hfirst hall layout
    (exponent + (first :: rest).length - 1)
  refine ⟨spelling, htext, k, ?_, ?_⟩
  · rw [hcoefficient, hvalue]
  · rw [hscale]
    omega

end Layout

namespace Double

/-- A number with the sign of zero taken away. -/
def plainZero (x : Double) : Double :=
  if x.isZero then 0 else x

/-- A number text of a finite number other than zero is a spelling behind a sign. -/
theorem exists_spelling_textWith (layout : Layout) (negative : Bool) {units : ℕ}
    (h : Representable units) (hpos : 0 < units) :
    ∃ spelling : Json.Spelling,
      ((finite negative units h).textWith layout).toList
        = (if negative then '-' :: spelling.text else spelling.text)
      ∧ ofLiteral negative spelling.literal = .finite negative units h := by
  obtain ⟨spelling, htext, k, hcoefficient, hscale⟩ :=
    layout.exists_spelling_writeScaled (shortest_ne_zero hpos) (shortest units).2
  have hquarters : quarters spelling.literal.coefficient spelling.literal.scale
      = quarters (shortest units).1 (shortest units).2 := by
    rw [quarters, quarters, hcoefficient, hscale, zpow_sub₀ (by norm_num), zpow_natCast]
    generalize (unitsPerOne : ℚ) = one
    push_cast
    field_simp
  refine ⟨spelling, ?_, ofDecimal_of_contains h hpos negative ?_⟩
  · rw [textWith, if_neg hpos.ne']
    dsimp only
    rw [String.toList_ofList, ← htext]
  · rw [hquarters]
    exact shortest_contains hpos

variable (layout : Layout) {x : Double} (hx : x.isFinite = true)

include hx

/-- **A number text is read back** as the number it was written for, in every layout; only the sign
of a zero is lost. -/
theorem number?_textWith : Json.number? (x.textWith layout).toList = some x.plainZero := by
  cases x with
  | nan => cases hx
  | infinite negative => cases hx
  | finite negative units h =>
      by_cases hzero : units = 0
      · subst hzero
        rw [textWith, if_pos rfl, plainZero, isZero, beq_self_eq_true, if_pos rfl,
          zero_eq_signedZero]
        rfl
      · obtain ⟨spelling, htext, hvalue⟩ :=
          exists_spelling_textWith layout negative h (Nat.pos_of_ne_zero hzero)
        rw [htext, spelling.number?_text, hvalue, plainZero, isZero, beq_false_of_ne hzero,
          if_neg Bool.false_ne_true]

theorem all_textWith : (x.textWith layout).toList.all Json.isNumberChar = true := by
  cases x with
  | nan => cases hx
  | infinite negative => cases hx
  | finite negative units h =>
      by_cases hzero : units = 0
      · rw [textWith, if_pos hzero]
        rfl
      · obtain ⟨spelling, htext, -⟩ :=
          exists_spelling_textWith layout negative h (Nat.pos_of_ne_zero hzero)
        rw [htext]
        cases negative with
        | false => exact spelling.all_text
        | true => rw [if_pos rfl, List.all_cons, spelling.all_text]; rfl

end Double

/-! ### Number texts as units -/

namespace Text

/-- A character of the ASCII range is one unit, which shows it. -/
theorem unitsOf_of_lt {c : Char} (hc : c.toNat < 128) :
    unitsOf c = [UInt16.ofNat c.toNat] ∧ glyph (UInt16.ofNat c.toNat) = c := by
  have hsize : (UInt16.ofNat c.toNat).toNat = c.toNat := by
    rw [UInt16.toNat_ofNat']
    omega
  have hplain : isHigh (UInt16.ofNat c.toNat) = false ∧ isLow (UInt16.ofNat c.toNat) = false := by
    simp only [isHigh, isLow, UInt16.le_iff_toNat_le, hsize]
    simp
    omega
  constructor
  · rw [unitsOf, if_pos (by omega)]
  · rw [glyph, hplain.1, hplain.2, Bool.or_self, if_neg Bool.false_ne_true, hsize,
      Char.ofNat_toNat]

theorem map_glyph_flatMap {chars : List Char} (hall : ∀ c ∈ chars, c.toNat < 128) :
    (chars.flatMap unitsOf).map glyph = chars := by
  induction chars with
  | nil => rfl
  | cons c chars ih =>
      obtain ⟨hunits, hglyph⟩ := unitsOf_of_lt (hall c List.mem_cons_self)
      rw [List.flatMap_cons, List.map_append, hunits, List.map_singleton, hglyph,
        ih fun c hc => hall c (List.mem_cons_of_mem _ hc)]
      rfl

end Text

namespace Json

open Text Numeral

theorem toNat_lt_of_isNumberChar {c : Char} (hc : isNumberChar c = true) : c.toNat < 128 := by
  simp only [isNumberChar, Bool.or_eq_true, beq_iff_eq] at hc
  rcases hc with ((((hdigit | rfl) | rfl) | rfl) | rfl) | rfl
  · by_contra hlarge
    have hnone : digitValue? 10 c = none := by
      simp only [digitValue?]
      rw [if_neg (by omega : ¬ (48 ≤ c.toNat ∧ c.toNat ≤ 57)),
        if_neg (by omega : ¬ (97 ≤ c.toNat ∧ c.toNat ≤ 102)),
        if_neg (by omega : ¬ (65 ≤ c.toNat ∧ c.toNat ≤ 70)), if_neg (lt_irrefl 10)]
    rw [isDecimalDigit, isDigit, hnone] at hdigit
    cases hdigit
  all_goals decide

/-- Units that belong to a number. -/
def isNumberUnit (unit : UInt16) : Bool :=
  isNumberChar (glyph unit)

section Units

variable (layout : Layout) {x : Double} (hx : x.isFinite = true)

include hx

theorem map_glyph_textWith :
    (ofString (x.textWith layout)).units.map glyph = (x.textWith layout).toList :=
  map_glyph_flatMap fun c hc =>
    toNat_lt_of_isNumberChar (List.all_eq_true.mp (x.all_textWith layout hx) c hc)

theorem all_units_textWith :
    (ofString (x.textWith layout)).units.all isNumberUnit = true := by
  have hall := x.all_textWith layout hx
  rw [← map_glyph_textWith layout hx, List.all_map] at hall
  exact hall

theorem exists_units_textWith :
    ∃ unit units, (ofString (x.textWith layout)).units = unit :: units
      ∧ isNumberUnit unit = true := by
  have hall := all_units_textWith layout hx
  have hglyphs := map_glyph_textWith layout hx
  have hnumber := x.number?_textWith layout hx
  cases hunits : (ofString (x.textWith layout)).units with
  | nil =>
      rw [hunits, List.map_nil] at hglyphs
      rw [← hglyphs] at hnumber
      cases hnumber
  | cons unit units =>
      rw [hunits, List.all_cons, Bool.and_eq_true] at hall
      exact ⟨unit, units, rfl, hall.1⟩

/-- **The reader stops where the number does.** -/
theorem readNumber?_textWith {rest : List UInt16} (hrest : Stops isNumberUnit rest) :
    readNumber? ((ofString (x.textWith layout)).units ++ rest) = some (x.plainZero, rest) := by
  rw [readNumber?, ← show isNumberUnit = fun unit => isNumberChar (glyph unit) from rfl,
    span_append (all_units_textWith layout hx) hrest]
  dsimp only
  rw [map_glyph_textWith layout hx, x.number?_textWith layout hx, Option.map_some]

end Units

end Json

end AngleSeries
