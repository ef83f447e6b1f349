/-!
# Numerals

Natural numbers as digit strings in a base from two to sixteen. `toDigits` writes the canonical
string: no leading zero except for zero itself, letters in lower case. `ofDigits` reads any string
of digits by Horner's rule and never looks at the case of a letter, so the two meet at every
canonical string. `digitCount` measures a number by its decimal digits without writing them, and
`stripZeros` moves trailing zeros of a coefficient into its power of ten.
-/

namespace AngleSeries.Numeral

def digitChar (d : Nat) : Char :=
  if d < 10 then Char.ofNat (48 + d) else Char.ofNat (87 + d)

/-- The value of an ASCII digit or letter, if it is below `base`. -/
def digitValue? (base : Nat) (c : Char) : Option Nat :=
  let code := c.toNat
  let value :=
    if 48 ≤ code ∧ code ≤ 57 then code - 48
    else if 97 ≤ code ∧ code ≤ 102 then code - 87
    else if 65 ≤ code ∧ code ≤ 70 then code - 55
    else base
  if value < base then some value else none

/-- Digits of the given base, in ASCII only. -/
def isDigit (base : Nat) (c : Char) : Bool :=
  (digitValue? base c).isSome

/-- An ASCII decimal digit. -/
def isDecimalDigit (c : Char) : Bool :=
  isDigit 10 c

/-- The digits of `n` in front of those already written. -/
def toDigitsOnto (base n : Nat) (written : List Char) : List Char :=
  if 2 ≤ base ∧ base ≤ n then
    toDigitsOnto base (n / base) (digitChar (n % base) :: written)
  else
    digitChar n :: written
termination_by n
decreasing_by exact Nat.div_lt_self (by omega) (by omega)

def toDigits (base n : Nat) : List Char :=
  toDigitsOnto base n []

/-- The places of `n` in the given base, as numbers, in front of those already written. -/
def placesOnto (base n : Nat) (written : List Nat) : List Nat :=
  if 2 ≤ base ∧ base ≤ n then placesOnto base (n / base) (n % base :: written)
  else n :: written
termination_by n
decreasing_by exact Nat.div_lt_self (by omega) (by omega)

/-- The value of a digit string; a character that is no digit counts as zero. -/
def ofDigits (base : Nat) (digits : List Char) : Nat :=
  digits.foldl (fun value c => value * base + (digitValue? base c).getD 0) 0

/-- How many decimal digits `n` has; zero has one. -/
def digitCount (n : Nat) : Nat :=
  if 10 ≤ n then digitCount (n / 10) + 1 else 1
termination_by n
decreasing_by exact Nat.div_lt_self (by omega) (by omega)

def natText (n : Nat) : String :=
  String.ofList (toDigits 10 n)

def intText (i : Int) : String :=
  if i < 0 then "-" ++ natText i.natAbs else natText i.natAbs

/-- A coefficient without trailing zeros, and the power of ten that makes up for them. -/
def stripZeros (coefficient : Nat) (exponent : Int) : Nat × Int :=
  if coefficient = 0 then (0, 0)
  else if coefficient % 10 = 0 then stripZeros (coefficient / 10) (exponent + 1)
  else (coefficient, exponent)
termination_by coefficient
decreasing_by omega

/-- The longest run of decimal digits at the front, and what follows it. -/
def spanDigits (text : List Char) : List Char × List Char :=
  text.span isDecimalDigit

/-- A sign and at least one digit, and nothing else. -/
def readInt? (text : List Char) : Option Int :=
  let (negative, digits) : Bool × List Char :=
    match text with
    | '-' :: rest => (true, rest)
    | '+' :: rest => (false, rest)
    | _ => (false, text)
  if digits.isEmpty || !digits.all isDecimalDigit then none
  else
    let magnitude : Int := (ofDigits 10 digits : Nat)
    some (if negative then -magnitude else magnitude)

end AngleSeries.Numeral
