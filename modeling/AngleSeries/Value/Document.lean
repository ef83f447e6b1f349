import AngleSeries.Decimal.Text
import AngleSeries.Fault
import AngleSeries.Json.Printer
import AngleSeries.Value.Basic

/-!
# Plain documents of loose values

The ordinary way to write a value as JSON, for use in messages. It is more lenient than the
canonical form: numbers that are not finite become `null`, and objects of any class are written by
the members they show. A value is asked once for one that stands for it, and what it offers is then
written by its members. Only integers of unbounded size are refused.
-/

namespace AngleSeries.Value

mutual

/-- The document of a value; `none` for a value that has none. -/
def toJson : Value → Except Fault (Option Json)
  | .absent | .procedure _ | .symbol _ => .ok none
  | .null => .ok (some .null)
  | .bool value => .ok (some (.bool value))
  | .number value => .ok (some (Json.ofDouble value))
  | .integer _ => .error .wrongKind
  | .string value => .ok (some (.string value))
  | .decimal value => .ok (some (.string value.signedText))
  | .array items => (toJsonItems items).map fun items => some (.array items)
  | .object _ members =>
    if isWithdrawn members then .ok none
    else (toJsonMembers members).map fun members => some (.object members)
  | .standIn (.standIn _) | .standIn (.date _) => .ok (some (.object []))
  | .standIn value => toJson value
  | .date instant => .ok (some (Json.ofInstant instant))
  | .map _ | .set _ | .error _ | .pattern _ => .ok (some (.object []))

/-- The documents of array items; a value that has none becomes `null`. -/
def toJsonItems : List Value → Except Fault (List Json)
  | [] => .ok []
  | item :: items => do
    let document ← toJson item
    let rest ← toJsonItems items
    .ok (document.getD .null :: rest)

def toJsonMembers : List (Text × Value) → Except Fault (List (Text × Json))
  | [] => .ok []
  | (key, value) :: members => do
    let document ← toJson value
    let rest ← toJsonMembers members
    .ok ((document.map fun document => (key, document) :: rest).getD rest)

end

def documentText (value : Value) : Except Fault Text :=
  value.toJson.map fun document => (document.map Json.compact).getD "undefined"

end AngleSeries.Value
