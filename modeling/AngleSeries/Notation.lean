import AngleSeries.Numeral

/-!
# Number notation

A number is printed from its significant digits and the power of ten of the first of them. A
`Layout` says for which powers the point is written in place, and whether a positive exponent
carries a sign; one function then serves every number format of the library that has no fixed count
of decimal places. `fixedPoint` serves those that have one.
-/

namespace AngleSeries

open Numeral

/-- Where positional notation ends and how a positive exponent is marked. -/
structure Layout where
  /-- Least power of ten of the leading digit that is written positionally. -/
  plainMin : Int
  /-- Greatest power of ten of the leading digit that is written positionally. -/
  plainMax : Int
  marksPlus : Bool

namespace Layout

def positional (digits : List Char) (lead : Int) : List Char :=
  if lead < 0 then
    '0' :: '.' :: (List.replicate (-lead - 1).toNat '0' ++ digits)
  else
    let whole := lead.toNat + 1
    if digits.length ≤ whole then digits ++ List.replicate (whole - digits.length) '0'
    else digits.take whole ++ '.' :: digits.drop whole

/-- One digit before the point, then the exponent. -/
def scientific (marksPlus : Bool) (digits : List Char) (lead : Int) : List Char :=
  let mantissa :=
    match digits with
    | first :: second :: rest => first :: '.' :: second :: rest
    | short => short
  let sign := if lead < 0 then ['-'] else if marksPlus then ['+'] else []
  mantissa ++ 'e' :: (sign ++ toDigits 10 lead.natAbs)

/-- The number whose significant digits are given and whose first digit stands for `10 ^ lead`. -/
def write (layout : Layout) (digits : List Char) (lead : Int) : List Char :=
  if layout.plainMin ≤ lead ∧ lead ≤ layout.plainMax then positional digits lead
  else scientific layout.marksPlus digits lead

/-- `coefficient · 10 ^ exponent`, for a coefficient without trailing zeros. -/
def writeScaled (layout : Layout) (coefficient : Nat) (exponent : Int) : List Char :=
  let digits := toDigits 10 coefficient
  layout.write digits (exponent + digits.length - 1)

end Layout

/-- A count of units in the last of `places` decimal places, given by its digits: the point stands
before the last `places` of them, and at least one digit before the point. -/
def fixedPoint (places : Nat) (digits : List Char) : List Char :=
  let padded := List.replicate (places + 1 - digits.length) '0' ++ digits
  let whole := padded.length - places
  if places = 0 then padded else padded.take whole ++ '.' :: padded.drop whole

/-- A decimal literal: digits before and after the point, and the exponent as written. -/
structure Literal where
  whole : List Char
  fraction : List Char
  exponent : Int

namespace Literal

def coefficient (literal : Literal) : Nat :=
  ofDigits 10 (literal.whole ++ literal.fraction)

def scale (literal : Literal) : Int :=
  literal.exponent - literal.fraction.length

/-- Reads digits with an optional point, at least one digit in all, and an optional exponent; the
whole text has to be used up. -/
def read? (text : List Char) : Option Literal :=
  let (whole, afterWhole) := spanDigits text
  let (fraction, afterFraction) :=
    match afterWhole with
    | '.' :: rest => spanDigits rest
    | rest => ([], rest)
  if whole.isEmpty && fraction.isEmpty then none
  else
    match afterFraction with
    | [] => some ⟨whole, fraction, 0⟩
    | mark :: rest =>
      if mark = 'e' ∨ mark = 'E' then
        (readInt? rest).map fun exponent => ⟨whole, fraction, exponent⟩
      else none

end Literal

end AngleSeries
