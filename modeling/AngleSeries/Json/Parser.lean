import AngleSeries.Double.Reading
import AngleSeries.Json.Basic

/-!
# Reading JSON

A strict reader: only four characters count as blank between tokens, a number has no superfluous
zero and no bare point, a text has no raw control character. A number outside the range of binary64
becomes infinite, and of two members with one key the later one counts.

The reader recurses on a bound that shrinks with every bracket, item and character; twice the length
of the text and two more is always enough.
-/

namespace AngleSeries.Json

open Numeral Text

def isBlank (unit : UInt16) : Bool :=
  unit == 0x20 || unit == 9 || unit == 10 || unit == 13

def skipBlanks (text : List UInt16) : List UInt16 :=
  text.dropWhile isBlank

def after? (mark : Char) : List UInt16 → Option (List UInt16)
  | unit :: rest => if glyph unit = mark then some rest else none
  | [] => none

def afterWord? (word : List Char) (text : List UInt16) : Option (List UInt16) :=
  word.foldlM (fun rest mark => after? mark rest) text

/-! ### Texts -/

/-- The unit of four hexadecimal digits, and what follows them. -/
def readQuad? : List UInt16 → Option (UInt16 × List UInt16)
  | a :: b :: c :: d :: rest =>
    let digits := [glyph a, glyph b, glyph c, glyph d]
    if digits.all (isDigit 16) then some (UInt16.ofNat (ofDigits 16 digits), rest) else none
  | _ => none

def escaped? (letter : Char) : Option UInt16 :=
  match letter with
  | '"' => some 0x22
  | '\\' => some 0x5C
  | '/' => some 0x2F
  | 'b' => some 8
  | 'f' => some 12
  | 'n' => some 10
  | 'r' => some 13
  | 't' => some 9
  | _ => none

/-- The first unit of a quoted text, or `none` in its place for the closing quote, and what follows
it. -/
def readUnit? : List UInt16 → Option (Option UInt16 × List UInt16)
  | [] => none
  | unit :: rest =>
    if unit = 0x22 then some (none, rest)
    else if unit = 0x5C then
      match rest with
      | [] => none
      | letter :: rest =>
        if glyph letter = 'u' then (readQuad? rest).map fun (unit, rest) => (some unit, rest)
        else (escaped? (glyph letter)).map fun unit => (some unit, rest)
    else if unit < 0x20 then none
    else some (some unit, rest)

def readUnits? : Nat → List UInt16 → Option (List UInt16 × List UInt16)
  | 0, _ => none
  | bound + 1, text => do
    let (unit, rest) ← readUnit? text
    match unit with
    | none => some ([], rest)
    | some unit =>
      let (units, rest) ← readUnits? bound rest
      some (unit :: units, rest)

/-! ### Numbers -/

def readDigits? (text : List Char) : Option (List Char × List Char) :=
  let (digits, rest) := spanDigits text
  if digits.isEmpty then none else some (digits, rest)

/-- The digits before the point: a zero alone, or digits that do not begin with one. -/
def readWhole? : List Char → Option (List Char × List Char)
  | '0' :: rest => some (['0'], rest)
  | text => readDigits? text

def readFraction? : List Char → Option (List Char × List Char)
  | '.' :: rest => readDigits? rest
  | text => some ([], text)

def readExponent? : List Char → Option (Int × List Char)
  | mark :: rest =>
    if mark = 'e' ∨ mark = 'E' then do
      let (negative, body) : Bool × List Char :=
        match rest with
        | '-' :: body => (true, body)
        | '+' :: body => (false, body)
        | body => (false, body)
      let (digits, rest) ← readDigits? body
      let magnitude : Int := (ofDigits 10 digits : Nat)
      some (if negative then -magnitude else magnitude, rest)
    else some (0, mark :: rest)
  | [] => some (0, [])

def number? (text : List Char) : Option Double := do
  let (negative, body) : Bool × List Char :=
    match text with
    | '-' :: body => (true, body)
    | body => (false, body)
  let (whole, rest) ← readWhole? body
  let (fraction, rest) ← readFraction? rest
  let (exponent, rest) ← readExponent? rest
  if rest.isEmpty then some (Double.ofLiteral negative ⟨whole, fraction, exponent⟩) else none

def isNumberChar (c : Char) : Bool :=
  isDecimalDigit c || c == '-' || c == '+' || c == '.' || c == 'e' || c == 'E'

def readNumber? (text : List UInt16) : Option (Double × List UInt16) :=
  let (front, rest) := text.span fun unit => isNumberChar (glyph unit)
  (number? (front.map glyph)).map fun x => (x, rest)

/-! ### Documents -/

mutual

def readValue? : Nat → List UInt16 → Option (Json × List UInt16)
  | 0, _ => none
  | bound + 1, text =>
    match skipBlanks text with
    | [] => none
    | unit :: rest =>
      match glyph unit with
      | '[' =>
        match after? ']' (skipBlanks rest) with
        | some rest => some (.array [], rest)
        | none => (readItems? bound rest).map fun (items, rest) => (.array items, rest)
      | '\x7b' =>
        match after? '\x7d' (skipBlanks rest) with
        | some rest => some (.object [], rest)
        | none =>
          (readMembers? bound rest).map fun (entries, rest) =>
            (.object (Members.ofList entries), rest)
      | '"' => (readUnits? bound rest).map fun (units, rest) => (.string ⟨units⟩, rest)
      | 't' => (afterWord? "rue".toList rest).map fun rest => (.bool true, rest)
      | 'f' => (afterWord? "alse".toList rest).map fun rest => (.bool false, rest)
      | 'n' => (afterWord? "ull".toList rest).map fun rest => (.null, rest)
      | _ => (readNumber? (unit :: rest)).map fun (x, rest) => (.number x, rest)

def readItems? : Nat → List UInt16 → Option (List Json × List UInt16)
  | 0, _ => none
  | bound + 1, text => do
    let (item, rest) ← readValue? bound text
    let rest := skipBlanks rest
    match after? ',' rest with
    | some rest =>
      let (items, rest) ← readItems? bound rest
      some (item :: items, rest)
    | none => (after? ']' rest).map fun rest => ([item], rest)

/-- The members of an object, as written, up to its closing brace. -/
def readMembers? : Nat → List UInt16 → Option (List (Text × Json) × List UInt16)
  | 0, _ => none
  | bound + 1, text => do
    let rest ← after? '"' (skipBlanks text)
    let (units, rest) ← readUnits? bound rest
    let rest ← after? ':' (skipBlanks rest)
    let (value, rest) ← readValue? bound rest
    let rest := skipBlanks rest
    match after? ',' rest with
    | some rest =>
      let (members, rest) ← readMembers? bound rest
      some ((⟨units⟩, value) :: members, rest)
    | none => (after? '\x7d' rest).map fun rest => ([(⟨units⟩, value)], rest)

end

/-- The document a text holds, with nothing but blanks around it. -/
def parse? (text : Text) : Option Json :=
  match readValue? (2 * text.units.length + 2) text.units with
  | some (document, rest) => if (skipBlanks rest).isEmpty then some document else none
  | none => none

end AngleSeries.Json
