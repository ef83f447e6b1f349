import AngleSeries.Config.Reading
import AngleSeries.Json.Parser

/-!
# Loading run configurations

A configuration comes as a JSON text from a named source. Loading reports why a text is refused;
`Config.require` turns the refusal into a fault that names the source.
-/

namespace AngleSeries

/-- Why a configuration text was refused, with the issues met if it was a document at all. -/
structure Refusal where
  message : Text
  issues : Option (List Issue)

namespace Config

def unreadable : Text := "<json-parse-error>"

def load (text : Text) : Except Refusal (Reading Config) :=
  match Json.parse? text with
  | none => .error ⟨unreadable, none⟩
  | some document =>
    match validate (Value.ofJson document) with
    | .ok reading => .ok reading
    | .error (.badConfig message issues) => .error ⟨message, some issues⟩
    | .error fault => .error ⟨fault.wording, none⟩

def require (source text : Text) : Except Fault Config :=
  match load text with
  | .ok reading => .ok reading.value
  | .error refusal =>
    .error (.badConfig (source ++ ": " ++ refusal.message) (refusal.issues.getD []))

end Config

end AngleSeries
