import AngleSeries.Double.Basic
import AngleSeries.Notation
import AngleSeries.Text.Basic

/-!
# Reading binary64 numbers

`ofDecimal` rounds `coefficient · 10 ^ exponent` once. Powers of ten outside the range are settled
by the position of the leading digit alone, so an exponent of any size is never expanded. `ofText`
reads a free-standing numeral: blanks around it are skipped, an empty text is zero, and a text that
is no numeral is not a number.
-/

namespace AngleSeries.Double

open Numeral

-- Powers are the built-in ones, also where other instances are in scope.
attribute [local instance (2000)] instPowNat

def ofDecimal (negative : Bool) (coefficient : Nat) (exponent : Int) : Double :=
  if coefficient = 0 then signedZero negative
  else
    let lead := exponent + digitCount coefficient - 1
    if 309 ≤ lead then .infinite negative
    else if lead ≤ -326 then signedZero negative
    else
      ofQuotient negative (coefficient * 10 ^ exponent.toNat * unitsPerOne) (10 ^ (-exponent).toNat)

def ofLiteral (negative : Bool) (literal : Literal) : Double :=
  ofDecimal negative literal.coefficient literal.scale

/-- A decimal literal or the word for infinity, after an optional sign. -/
def ofSigned (text : List Char) : Double :=
  let (negative, body) : Bool × List Char :=
    match text with
    | '-' :: rest => (true, rest)
    | '+' :: rest => (false, rest)
    | _ => (false, text)
  if body = "Infinity".toList then .infinite negative
  else ((Literal.read? body).map (ofLiteral negative)).getD .nan

def radix? (mark : Char) : Option Nat :=
  if mark = 'x' ∨ mark = 'X' then some 16
  else if mark = 'o' ∨ mark = 'O' then some 8
  else if mark = 'b' ∨ mark = 'B' then some 2
  else none

/-- Digits of an announced base; there has to be at least one. -/
def ofRadix (base : Nat) (digits : List Char) : Double :=
  if digits.isEmpty || !digits.all (isDigit base) then .nan
  else ofNat (ofDigits base digits)

def ofText (text : String) : Double :=
  match Text.trim text.toList with
  | [] => signedZero false
  | '0' :: mark :: digits =>
    match radix? mark with
    | some base => ofRadix base digits
    | none => ofSigned ('0' :: mark :: digits)
  | body => ofSigned body

end AngleSeries.Double
