import AngleSeries.Double.Basic
import AngleSeries.Instant.Basic
import AngleSeries.Members

/-!
# JSON documents

A document is a scalar, an array or an object with ordered members.
-/

namespace AngleSeries

inductive Json where
  | null
  | bool (value : Bool)
  | number (value : Double)
  | string (value : Text)
  | array (items : List Json)
  | object (members : List (Text × Json))

namespace Json

/-- A finite number, and `null` in place of any other. -/
def ofDouble (x : Double) : Json :=
  if x.isFinite then .number x else .null

/-- The standard text of an instant, and `null` in place of none. -/
def ofInstant (instant : Option Instant) : Json :=
  (instant.map fun instant => Json.string instant.standardText).getD .null

def isNull : Json → Bool
  | .null => true
  | _ => false

def ofNat (n : Nat) : Json :=
  .number (Double.ofNat n)

/-- The member of an object, if the document is one and has it. -/
def get? : Json → Text → Option Json
  | .object members, key => Members.get? members key
  | _, _ => none

end Json

end AngleSeries
