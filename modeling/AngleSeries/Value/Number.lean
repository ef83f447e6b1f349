import AngleSeries.Instant.Reading
import AngleSeries.Value.Text

/-!
# Numbers of loose values

A value that is no number counts as one all the same: a date counts as its milliseconds and most
others as the numeral in their plain text. Integers of any size do not mix with binary64 numbers, so
each of the two readings below refuses what only the other one can represent.
-/

namespace AngleSeries.Value

def toDouble? : Value → Option Double
  | .absent => some .nan
  | .null => some 0
  | .bool value => some (if value then 1 else 0)
  | .number value => some value
  | .integer _ => none
  | .decimal value => some value.toDouble
  | .date instant =>
    some ((instant.map fun instant => Double.ofInt instant.milliseconds).getD .nan)
  | value => value.text?.map fun text => Double.ofText text.string

def toDouble (value : Value) : Except Fault Double :=
  match value.toDouble? with
  | some x => .ok x
  | none => .error .wrongKind

/-- The instant a value denotes: that of a date, the one a text spells out, or else the one with as
many milliseconds as the value counts. -/
def toInstant (value : Value) : Except Fault (Option Instant) :=
  match value with
  | .date instant => .ok instant
  | .string text => .ok (Instant.read? text.string)
  | other => other.toDouble.map Instant.ofDouble?

/-- The integer that a text denotes: decimal digits with an optional sign, or digits in another
base without one. Blanks around it are skipped, and an empty text is zero. -/
def wholeText? (text : Text) : Option Int :=
  match Text.trim text.chars with
  | [] => some 0
  | '0' :: mark :: digits =>
    match Double.radix? mark with
    | some base =>
      if digits.isEmpty || !digits.all (Numeral.isDigit base) then none
      else some (Numeral.ofDigits base digits : Nat)
    | none => Numeral.readInt? ('0' :: mark :: digits)
  | digits => Numeral.readInt? digits

def wholeOfText (text : Text) : Except Fault Int :=
  match wholeText? text with
  | some n => .ok n
  | none => .error .malformed

/-- The integer a value stands for; a number with a fraction stands for none. -/
def wholeNumber : Value → Except Fault Int
  | .absent | .null => .error .wrongKind
  | .bool value => .ok (if value then 1 else 0)
  | .number x =>
    match x.toInt? with
    | some n => .ok n
    | none => .error (.range .notAnInteger)
  | .integer n => .ok n
  | .decimal value => wholeOfText value.signedText
  | .date (some instant) => .ok instant.milliseconds
  | .date none => .error (.range .notAnInteger)
  | value => do wholeOfText (← value.plain)

end AngleSeries.Value
