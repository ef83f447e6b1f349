import AngleSeries.Text.Basic

/-!
# Tokens of a date

A date in text is a row of numbers, marks, words and blanks. Only the first letters of a word count
and their case does not; a word that is longer than what it stands for is still taken for a month,
but for nothing else. Whatever stands in parentheses is a single token without a meaning, and the
text ends at the first null character.
-/

namespace AngleSeries.Instant

open Numeral

inductive Word where
  | month (number : Nat)
  /-- Half of the day, by the hour it begins at. -/
  | halfDay (hour : Nat)
  /-- A zone, by its hours ahead of universal time. -/
  | zone (hours : Int)
  | zulu
  | separator
  | unknown
  deriving DecidableEq

inductive Token where
  | number (value width : Nat)
  | mark (sign : Char)
  | word (meaning : Word)
  | blank
  | other
  deriving DecidableEq

def monthStems : List String :=
  ["jan", "feb", "mar", "apr", "may", "jun", "jul", "aug", "sep", "oct", "nov", "dec"]

def words : List (String × Word) := [
  ("am", .halfDay 0), ("pm", .halfDay 12),
  ("ut", .zone 0), ("utc", .zone 0), ("gmt", .zone 0), ("z", .zulu),
  ("cdt", .zone (-5)), ("cst", .zone (-6)), ("edt", .zone (-4)), ("est", .zone (-5)),
  ("mdt", .zone (-6)), ("mst", .zone (-7)), ("pdt", .zone (-7)), ("pst", .zone (-8)),
  ("t", .separator)]

/-- What a word means. -/
def Word.ofLetters (letters : List Char) : Word :=
  let lower := letters.map Char.toLower
  match monthStems.findIdx? fun stem => stem.toList = lower.take 3 with
  | some index => .month (index + 1)
  | none => (words.lookup (String.ofList lower)).getD .unknown

/-- The digits of a number that count, leading zeros apart. -/
def countedDigits : Nat := 9

/-- A number, of which only the first digits count. -/
def Token.ofDigits (digits : List Char) : Token :=
  .number (Numeral.ofDigits 10 ((digits.dropWhile (· == '0')).take countedDigits)) digits.length

/-- The characters that words are made of: all from the first capital letter on, except spaces. -/
def isWordChar (c : Char) : Bool :=
  'A' ≤ c && (!Text.isBlank c || c == '\u2028' || c == '\u2029')

def isMark (c : Char) : Bool :=
  c == ':' || c == '-' || c == '+' || c == '.' || c == ')'

/-- What follows a text in parentheses of which `depth` are still open. -/
def afterParentheses (depth : Nat) : List Char → List Char
  | [] => []
  | c :: rest =>
    if depth = 0 || c.toNat = 0 then c :: rest
    else if c = '(' then afterParentheses (depth + 1) rest
    else if c = ')' then afterParentheses (depth - 1) rest
    else afterParentheses depth rest

theorem length_afterParentheses_le (depth : Nat) (text : List Char) :
    (afterParentheses depth text).length ≤ text.length := by
  fun_induction afterParentheses depth text <;> simp_all <;> omega

def tokens (text : List Char) : List Token :=
  match text with
  | [] => []
  | c :: rest =>
    if c.toNat = 0 then []
    else if isDecimalDigit c then
      .ofDigits (c :: rest.takeWhile isDecimalDigit) :: tokens (rest.dropWhile isDecimalDigit)
    else if isMark c then .mark c :: tokens rest
    else if isWordChar c then
      .word (.ofLetters (c :: rest.takeWhile isWordChar)) :: tokens (rest.dropWhile isWordChar)
    else if Text.isBlank c then .blank :: tokens rest
    else if c = '(' then .other :: tokens (afterParentheses 1 rest)
    else .other :: tokens rest
termination_by text.length
decreasing_by
  all_goals simp only [List.length_cons]
  · exact Nat.lt_succ_of_le (List.dropWhile_suffix isDecimalDigit).length_le
  · omega
  · exact Nat.lt_succ_of_le (List.dropWhile_suffix isWordChar).length_le
  · omega
  · exact Nat.lt_succ_of_le (length_afterParentheses_le 1 rest)
  · omega

end AngleSeries.Instant
