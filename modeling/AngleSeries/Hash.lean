import AngleSeries.Fault
import AngleSeries.Text.Basic

/-!
# Hash texts

A hash is a natural number written in hexadecimal, with blanks around it and a `0x` in front
allowed. Reading ignores the case of letters; writing uses lower case and pads with zeros.
-/

namespace AngleSeries.Hash

open Numeral

def dropMark : List Char → List Char
  | '0' :: 'x' :: digits => digits
  | '0' :: 'X' :: digits => digits
  | text => text

/-- The digits of a hash, without the blanks and the mark around them. -/
def digits (text : Text) : List Char :=
  dropMark (Text.trim text.chars)

def isHash (text : Text) : Bool :=
  let digits := digits text
  !digits.isEmpty && digits.all (isDigit 16)

def parse (text : Text) : Except Fault Nat :=
  let digits := digits text
  if digits.isEmpty then .error (.field (.badHash text .empty))
  else if !digits.all (isDigit 16) then .error (.field (.badHash text .foreignCharacter))
  else .ok (ofDigits 16 digits)

def pad (width : Nat) (digits : List Char) : List Char :=
  List.replicate (width - digits.length) '0' ++ digits

def write (value width : Nat) : String :=
  String.ofList (pad width (toDigits 16 value))

/-- The number of digits a width asks for: its integer part, or none if it is not a number. -/
def digitsWanted : Double → Nat
  | .nan => 0
  | .infinite negative => if negative then 1 else Text.maxLength + 1
  | width => max 1 ((width.floor?).getD 0).toNat

def requireNonNegative (value : Int) : Except Fault Unit :=
  if value < 0 then .error (.range (.negativeHash value)) else .ok ()

/-- An integer as a hash; negative integers have none. -/
def ofInt (value : Int) (width : Double) : Except Fault String := do
  requireNonNegative value
  if Text.maxLength < digitsWanted width then .error (.range .tooLarge)
  else .ok (write value.toNat (digitsWanted width))

end AngleSeries.Hash
