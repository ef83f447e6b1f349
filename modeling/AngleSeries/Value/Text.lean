import AngleSeries.Decimal.Fixed
import AngleSeries.Fault
import AngleSeries.Text.Quoted
import AngleSeries.Value.Basic

/-!
# Texts of loose values

Messages show a value by its plain text, with texts in quotes. A few values have no plain text at
all, and to ask for it is a fault.
-/

namespace AngleSeries.Value

/-- What a plain text is asked for: a value that is joined into an array leaves a gap if it is
absent. -/
def gap : Value → Bool
  | .absent | .null => true
  | _ => false

def hidesText (members : List (Text × Value)) : Bool :=
  members.any fun member => member.1 == "toString"

mutual

def text? : Value → Option Text
  | .absent => some "undefined"
  | .null => some "null"
  | .bool value => some (if value then "true" else "false")
  | .number value => some value.text
  | .integer value => some (Numeral.intText value)
  | .string value => some value
  | .decimal value => some value.text
  | .array items => (texts? items).map (Text.join ",")
  | .object kind members =>
    if kind = .bare ∨ hidesText members then none else some "[object Object]"
  | .map _ => some "[object Map]"
  | .set _ => some "[object Set]"
  | .standIn _ => some "[object Object]"
  | .date instant => some ((instant.map Instant.longText).getD "Invalid Date")
  | .error message => some (if message = "" then "Error" else "Error: " ++ message)
  | .pattern text | .procedure text => some text
  | .symbol _ => none

def texts? : List Value → Option (List Text)
  | [] => some []
  | item :: items =>
    let first : Option Text := if item.gap then some "" else text? item
    match first, texts? items with
    | some text, some texts => some (text :: texts)
    | _, _ => none

end

/-- The text that stands for a value as a key, which even a name without a value has. -/
def label? : Value → Option Text
  | .symbol text => some text
  | value => value.text?

/-- A value as a message shows it: a text in quotes, anything else by its plain text. -/
def shown? : Value → Option Text
  | .string value => some (Text.quote value)
  | value => value.label?

def plain (value : Value) : Except Fault Text :=
  match value.text? with
  | some text => .ok text
  | none => .error .wrongKind

/-- The text of a number with a fixed count of decimal places; no other value has one. -/
def fixed (places : Nat) : Value → Except Fault Text
  | .number x => .ok (x.fixed places)
  | .decimal x =>
    if Text.maxLength < x.wholeLength then .error (.range .tooLarge) else .ok (x.fixed places)
  | _ => .error .wrongKind

/-- Reports a value that is out of range, by its plain text. -/
def outOfRange {α : Type} (value : Value) (fault : Text → RangeFault) : Except Fault α := do
  .error (.range (fault (← value.plain)))

end AngleSeries.Value
