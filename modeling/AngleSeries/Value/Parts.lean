import AngleSeries.Value.Number

/-!
# Parts of values

A decimal can be given by its parts: a record with the tag of decimals that holds a sign, the digits
in words of seven and the power of ten of the leading digit. A record without digits is an infinity,
or no number at all if its sign is no sign.
A copy of a value takes over the members that are the value's own. Only a few kinds of value have
any: an object has its members, an array its items, a text its units and a decimal its parts.
-/

namespace AngleSeries.Value

-- Powers are the built-in ones, also where other instances are in scope.
attribute [local instance (2000)] instPowNat

/-! ### Decimals as records -/

/-- The tag by which a record makes itself known as a decimal. -/
def decimalTag : Text := "[object Decimal]"

def isDecimalRecord (value : Value) : Bool :=
  value.member "toStringTag" |>.string?.any (· == decimalTag)

def wordLength : Nat := 7

def wordDigits? : Value → Option (List Char)
  | .number x =>
    match x.toSafeInt? with
    | some n => if 0 ≤ n then some (Numeral.toDigits 10 n.toNat) else none
    | none => none
  | _ => none

/-- The digits of words, of which all but the first are filled up with zeros. -/
def digitsOfWords? : List Value → Option (List Char)
  | [] => none
  | first :: rest => do
    let digits ← wordDigits? first
    let others ← rest.mapM fun word => (wordDigits? word).map fun digits =>
      List.replicate (wordLength - digits.length) '0' ++ digits
    some (digits ++ others.flatten)

/-- The words of `coefficient · 10 ^ exponent`, which end at a multiple of seven places from the
point. -/
def wordsOf (coefficient : Nat) (exponent : Int) : List Nat :=
  Numeral.placesOnto (10 ^ wordLength) (coefficient * 10 ^ (exponent % wordLength).toNat) []

def signOf (negative : Bool) : Value :=
  .number (if negative then -1 else 1)

def partsOfDecimal : Decimal → List (Text × Value)
  | .nan => [("s", .number .nan), ("e", .number .nan), ("d", .null)]
  | .infinite negative => [("s", signOf negative), ("e", .number .nan), ("d", .null)]
  | .finite negative coefficient exponent _ => [
    ("s", signOf negative),
    ("e", .number (Double.ofInt (leadOf coefficient exponent))),
    ("d", .array ((wordsOf coefficient exponent).map fun word => .number (Double.ofNat word)))]

/-- Whether a member is there and does not count as false. -/
def isThere : Value → Bool
  | .absent | .null => false
  | .bool value => value
  | .number x => !(x.isZero || x == .nan)
  | .integer n => n != 0
  | .string text => text != ""
  | _ => true

def decimalOfRecord (record : Value) : Except Fault Decimal := do
  let sign ← (record.member "s").toDouble
  let lead ← (record.member "e").toDouble
  let digits := record.member "d"
  let isNegative := sign.lt 0
  if !isThere digits || Double.lt (Double.ofInt exponentLimit) lead then
    .ok (if sign.isZero || sign == .nan then .nan else .infinite isNegative)
  else if lead.lt (Double.ofInt (-exponentLimit)) then .ok (.signedZero isNegative)
  else
    match digits with
    | .array words =>
      match digitsOfWords? words, lead.toInt? with
      | some digits, some lead =>
        .ok (.ofScaled isNegative (Numeral.ofDigits 10 digits) (lead - (digits.length - 1)))
      | _, _ => .error .wrongKind
    | _ => .error .wrongKind

/-! ### Members of their own -/

def numbered (items : List Value) : List (Text × Value) :=
  items.zipIdx.map fun (item, index) => (Numeral.natText index, item)

/-- The members that a copy of a value takes over. -/
def ownMembers : Value → List (Text × Value)
  | .object _ members => members
  | .array items => numbered items
  | .string text => numbered (text.units.map fun unit => .string ⟨[unit]⟩)
  | .decimal value => partsOfDecimal value
  | _ => []

/-- What a value offers to stand for it in a document. -/
def substitute? : Value → Option Value
  | .standIn value => some value
  | _ => none

end AngleSeries.Value
