import AngleSeries.Decimal.Basic
import AngleSeries.Instant.Basic
import AngleSeries.Json.Basic

/-!
# Loose values

What reaches the library from outside is a `Value`: a document that has not been checked yet, and
that may hold, besides the six kinds of JSON, things a host program can put there, such as
integers of any size, decimals, maps, dates and functions.
-/

namespace AngleSeries

/-- Where the members of an object come from. -/
inductive ObjectKind where
  /-- An ordinary record. -/
  | plain
  /-- A record that inherits nothing, not even a text. -/
  | bare
  /-- A record that belongs to a class of the host program. -/
  | instanceOf
  deriving DecidableEq

/-- A value that has not been checked yet. -/
inductive Value where
  | absent
  | null
  | bool (value : Bool)
  | number (value : Double)
  | integer (value : Int)
  | string (value : Text)
  | decimal (value : Decimal)
  | array (items : List Value)
  | object (kind : ObjectKind) (members : List (Text × Value))
  | map (entries : List (Value × Value))
  | set (items : List Value)
  /-- A value that offers another one to stand for it in a document. -/
  | standIn (value : Value)
  /-- A date, which may fail to denote an instant. -/
  | date (instant : Option Instant)
  | error (message : Text)
  /-- A pattern of texts, by its own text. -/
  | pattern (text : Text)
  /-- Something that can be called, by its text. -/
  | procedure (text : Text)
  /-- A name without a value, by the text that describes it. -/
  | symbol (text : Text)

namespace Value

def isPresent : Value → Bool
  | .absent | .null => false
  | _ => true

/-- The value, unless it is absent or null. -/
def orElse (value fallback : Value) : Value :=
  if value.isPresent then value else fallback

def orDefault (value fallback : Value) : Value :=
  match value with
  | .absent => fallback
  | value => value

/-- Has members that can be looked up: every compound value except an array. -/
def isRecord : Value → Bool
  | .object .. | .map _ | .set _ | .standIn _ | .date _ | .error _ | .pattern _ | .decimal _ => true
  | _ => false

def member (value : Value) (key : Text) : Value :=
  match value with
  | .object _ members => (Members.get? members key).getD .absent
  | .error _ => if key = "name" then .string "Error" else .absent
  | _ => .absent

/-- Whether an object has a procedure of its own that offers nothing to stand for the object. -/
def isWithdrawn (members : List (Text × Value)) : Bool :=
  match Members.get? members "toJSON" with
  | some (.procedure _) => true
  | _ => false

def string? : Value → Option Text
  | .string text => some text
  | _ => none

def isText (value : Value) (text : Text) : Bool :=
  value.string? == some text

def number? : Value → Option Double
  | .number x => some x
  | _ => none

/-- Whether two scalars are the same key of a map. Not-a-number is the same key as itself. -/
def sameKey : Value → Value → Bool
  | .absent, .absent => true
  | .null, .null => true
  | .bool a, .bool b => a == b
  | .number a, .number b => a == b || (a.isZero && b.isZero)
  | .integer a, .integer b => a == b
  | .string a, .string b => a == b
  | _, _ => false

def putEntry (entries : List (Value × Value)) (key value : Value) : List (Value × Value) :=
  match entries with
  | [] => [(key, value)]
  | entry :: rest =>
    if sameKey entry.1 key then (entry.1, value) :: rest else entry :: putEntry rest key value

def mapOf (entries : List (Value × Value)) : Value :=
  .map (entries.foldl (fun done entry => putEntry done entry.1 entry.2) [])

mutual

def ofJson : Json → Value
  | .null => .null
  | .bool value => .bool value
  | .number value => .number value
  | .string value => .string value
  | .array items => .array (ofItems items)
  | .object members => .object .plain (ofMembers members)

def ofItems : List Json → List Value
  | [] => []
  | item :: items => ofJson item :: ofItems items

def ofMembers : List (Text × Json) → List (Text × Value)
  | [] => []
  | (key, value) :: members => (key, ofJson value) :: ofMembers members

end

end Value

end AngleSeries
