import AngleSeries.Decimal.Power
import AngleSeries.Text.Basic

/-!
# Reading decimals

A decimal text is an optional sign followed by a decimal literal, a word for a special value, or
digits in base two, eight or sixteen with an optional point and an optional binary exponent.
A single underscore between two digits is ignored. Digits are kept as written: only a binary
exponent can round, because its power of two is itself taken from a rounded decimal.
-/

namespace AngleSeries.Decimal

open Numeral

-- Powers are the built-in ones, also where other instances are in scope.
attribute [local instance (2000)] instPowNat

def isDigitUnit (unit : UInt16) : Bool :=
  isDecimalDigit (Text.glyph unit)

/-- The units without the underscores that stand between two decimal digits. -/
def dropUnderscores : List UInt16 → List UInt16
  | a :: b :: c :: rest =>
    if isDigitUnit a && b == 0x5F && isDigitUnit c then a :: dropUnderscores (c :: rest)
    else a :: dropUnderscores (b :: c :: rest)
  | short => short

def dropSeparators (text : Text) : Text :=
  ⟨dropUnderscores text.units⟩

def ofLiteral (negative : Bool) (literal : Literal) : Decimal :=
  ofScaled negative literal.coefficient literal.scale

/-- Digits in a base that is a power of two. -/
structure RadixLiteral where
  /-- Binary logarithm of the base. -/
  bits : Nat
  whole : List Char
  fraction : List Char
  exponent : Option Int

namespace RadixLiteral

/-- The base a letter after a leading zero announces, by its binary logarithm. -/
def bits? (mark : Char) : Option Nat :=
  if mark = 'x' ∨ mark = 'X' then some 4
  else if mark = 'o' ∨ mark = 'O' then some 3
  else if mark = 'b' ∨ mark = 'B' then some 1
  else none

/-- The digits after the announcement; the whole text has to be used up. -/
def readDigits? (bits : Nat) (text : List Char) : Option RadixLiteral :=
  let isDigit := Numeral.isDigit (2 ^ bits)
  let (whole, afterWhole) := text.span isDigit
  let (fraction, afterFraction) :=
    match afterWhole with
    | '.' :: rest => rest.span isDigit
    | rest => ([], rest)
  if whole.isEmpty && fraction.isEmpty then none
  else
    match afterFraction with
    | [] => some ⟨bits, whole, fraction, none⟩
    | mark :: rest =>
      if mark = 'p' ∨ mark = 'P' then
        (readInt? rest).map fun exponent => ⟨bits, whole, fraction, some exponent⟩
      else none

/-- A zero, the letter of a base and digits of that base. -/
def read? : List Char → Option RadixLiteral
  | '0' :: mark :: digits => (bits? mark).bind fun bits => readDigits? bits digits
  | _ => none

/-- The digits without the binary exponent, exactly. -/
def mantissa (negative : Bool) (literal : RadixLiteral) : Decimal :=
  let places := literal.bits * literal.fraction.length
  ofScaled negative (ofDigits (2 ^ literal.bits) (literal.whole ++ literal.fraction) * 5 ^ places)
    (-places)

end RadixLiteral

def ofRadixLiteral (negative : Bool) (literal : RadixLiteral) : Decimal :=
  let mantissa := literal.mantissa negative
  if mantissa.isZero then mantissa
  else (literal.exponent.map fun n => mantissa.scaleByTwo (effectiveExponent n)).getD mantissa

def ofUnsigned? (negative : Bool) (text : Text) : Option Decimal :=
  match Literal.read? text.chars with
  | some literal => some (ofLiteral negative literal)
  | none =>
    if text = "Infinity" then some (.infinite negative)
    else if text = "NaN" then some .nan
    else
      let bare := dropSeparators text
      match Literal.read? bare.chars with
      | some literal => some (ofLiteral negative literal)
      | none => (RadixLiteral.read? bare.chars).map (ofRadixLiteral negative)

def splitSign (text : Text) : Bool × Text :=
  match text.units with
  | [] => (false, text)
  | sign :: rest =>
    if sign = 0x2D then (true, ⟨rest⟩)
    else if sign = 0x2B then (false, ⟨rest⟩)
    else (false, text)

/-- The decimal a text denotes; for a text that denotes none, what is left of it after the sign and
the separators. -/
def ofText (text : Text) : Except Text Decimal :=
  let (negative, body) := splitSign text
  match ofUnsigned? negative body with
  | some decimal => .ok decimal
  | none => .error (dropSeparators body)

end AngleSeries.Decimal
