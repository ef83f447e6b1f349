import AngleSeries.Double.Basic

/-!
# Instants

An instant is a number of milliseconds from the start of 1970 in universal time, within a hundred
million days of it. Dates are those of the proleptic Gregorian calendar. `standardText` is the form
for programs, written in full, and `longText` is the form for people.
-/

namespace AngleSeries

open Numeral

/-- Milliseconds from the start of 1970. -/
structure Instant where
  milliseconds : Int
  deriving DecidableEq

namespace Instant

/-! ### The calendar -/

def dayLength : Int := 86400000

/-- How far an instant can be from the start of 1970, in days. -/
def reach : Int := 100000000

/-- Days from the first of March of the year zero to the start of 1970. -/
def epoch : Int := 719468

def dayNumber (year month day : Int) : Int :=
  let shifted := if month ≤ 2 then year - 1 else year
  let monthFromMarch := (month + 9) % 12
  365 * shifted + shifted / 4 - shifted / 100 + shifted / 400 + (153 * monthFromMarch + 2) / 5
    + day - 1 - epoch

def within? (milliseconds : Int) : Option Instant :=
  if milliseconds.natAbs ≤ (reach * dayLength).natAbs then some ⟨milliseconds⟩ else none

/-- A number of milliseconds, of which a fraction is dropped. -/
def ofDouble? : Double → Option Instant
  | .finite negative units _ =>
    let magnitude : Int := (units / unitsPerOne : Nat)
    within? (if negative then -magnitude else magnitude)
  | _ => none

structure Date where
  year : Int
  month : Nat
  day : Nat
  deriving DecidableEq

def dateOf (number : Int) : Date :=
  let days := number + epoch
  let era := days / 146097
  let dayOfEra := days % 146097
  let yearOfEra := (dayOfEra - dayOfEra / 1460 + dayOfEra / 36524 - dayOfEra / 146096) / 365
  let dayOfYear := dayOfEra - (365 * yearOfEra + yearOfEra / 4 - yearOfEra / 100)
  let monthFromMarch := (5 * dayOfYear + 2) / 153
  let month := (monthFromMarch + 2) % 12 + 1
  { year := yearOfEra + era * 400 + if month ≤ 2 then 1 else 0
    month := month.toNat
    day := (dayOfYear - (153 * monthFromMarch + 2) / 5 + 1).toNat }

def dayOf (instant : Instant) : Int :=
  instant.milliseconds / dayLength

def timeOf (instant : Instant) : Nat :=
  (instant.milliseconds % dayLength).toNat

/-! ### Writing -/

def padded (width n : Nat) : String :=
  let digits := toDigits 10 n
  String.ofList (List.replicate (width - digits.length) '0' ++ digits)

def clockText (time : Nat) : String :=
  padded 2 (time / 3600000) ++ ":" ++ padded 2 (time / 60000 % 60) ++ ":"
    ++ padded 2 (time / 1000 % 60)

/-- A year: four digits, or a sign and six. -/
def yearText (year : Int) : String :=
  if 0 ≤ year ∧ year ≤ 9999 then padded 4 year.toNat
  else (if year < 0 then "-" else "+") ++ padded 6 year.natAbs

def standardText (instant : Instant) : String :=
  let date := dateOf instant.dayOf
  yearText date.year ++ "-" ++ padded 2 date.month ++ "-" ++ padded 2 date.day ++ "T"
    ++ clockText instant.timeOf ++ "." ++ padded 3 (instant.timeOf % 1000) ++ "Z"

/-- The days of the week, from Sunday on. -/
def weekdays : List String := ["Sun", "Mon", "Tue", "Wed", "Thu", "Fri", "Sat"]

def months : List String :=
  ["Jan", "Feb", "Mar", "Apr", "May", "Jun", "Jul", "Aug", "Sep", "Oct", "Nov", "Dec"]

def longText (instant : Instant) : String :=
  let date := dateOf instant.dayOf
  let weekday := (instant.dayOf + 4) % 7
  weekdays.getD weekday.toNat "" ++ " " ++ months.getD (date.month - 1) "" ++ " "
    ++ padded 2 date.day ++ " " ++ (if date.year < 0 then "-" else "")
    ++ padded 4 date.year.natAbs ++ " " ++ clockText instant.timeOf
    ++ " GMT+0000 (Coordinated Universal Time)"

end Instant

end AngleSeries
