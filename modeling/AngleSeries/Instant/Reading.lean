import AngleSeries.Instant.Basic
import AngleSeries.Instant.Token

/-!
# Reading instants

A text is first held against the standard form: a year of four digits, or of six after a sign, then
month and day, and after the letter `T` a time with an offset. Behind that letter every departure is
refused. A departure before it leaves the rest to the free form, in which numbers are told apart by
what follows them: a colon makes a time, a sign after a time makes an offset, and up to three other
numbers make a date whose order depends on which of them can be a day. Words may name the month, the
half of the day and the zone; other words are skipped as long as no number has been read. Without an
offset a time is universal time. A day that the month does not have runs over into the next one.
-/

namespace AngleSeries.Instant

-- Powers are the built-in ones, also where other instances are in scope.
attribute [local instance (2000)] instPowNat

structure Zone where
  isBehind : Bool
  hour : Nat
  minute : Option Nat
  deriving DecidableEq

structure Parts where
  /-- Year, month and day, in an order that is not known yet. -/
  numbers : List Int := []
  month : Option Nat := none
  /-- Hour, minute, second and millisecond. -/
  time : List Nat := []
  halfDay : Option Nat := none
  zone : Option Zone := none
  isStandard : Bool := false

/-! ### Single parts -/

def isMonth (n : Int) : Bool :=
  1 ≤ n && n ≤ 12

def isDay (n : Int) : Bool :=
  1 ≤ n && n ≤ 31

def thousandths (value width : Nat) : Nat :=
  match width with
  | 1 => value * 100
  | 2 => value * 10
  | width => value / 10 ^ (min width countedDigits - 3)

def Zone.ofHours (hours : Int) : Zone :=
  ⟨hours < 0, hours.natAbs, some 0⟩

/-- A zone written as hours and minutes without a mark between them. -/
def Zone.ofClock (isBehind : Bool) (clock : Nat) : Zone :=
  ⟨isBehind, clock / 100, some (clock % 100)⟩

/-- The seconds ahead of universal time, in a word of thirty-two bits; too many of them count as
none. -/
def Zone.seconds? (zone : Zone) : Option Int :=
  let seconds : Nat := (zone.hour * 3600 + zone.minute.getD 0 * 60) % 2 ^ (32 : Nat)
  let ahead : Int := if zone.isBehind then -seconds else seconds
  if seconds < 2 ^ (31 : Nat) then some ahead else none

namespace Parts

def addNumber? (parts : Parts) (n : Int) : Option Parts :=
  if parts.numbers.length < 3 then some { parts with numbers := parts.numbers ++ [n] } else none

def addTime? (parts : Parts) (n : Nat) : Option Parts :=
  if parts.time.length < 4 then some { parts with time := parts.time ++ [n] } else none

/-- The time with a last number, and zeros for those that are left out. -/
def finishTime (parts : Parts) (n : Nat) : Parts :=
  { parts with time := (parts.time ++ [n, 0, 0, 0]).take 4 }

/-- Whether a number can be the next one of a time that has begun. -/
def expectsTime (parts : Parts) (n : Nat) : Bool :=
  match parts.time.length with
  | 1 | 2 => n ≤ 59
  | 3 => n ≤ 999
  | _ => false

/-- Whether a number can be the minutes of an offset that has begun. -/
def expectsOffset (parts : Parts) (n : Nat) : Bool :=
  match parts.zone with
  | some zone => zone.minute.isNone && n ≤ 59
  | none => false

def isUniversal (parts : Parts) : Bool :=
  parts.zone.any fun zone => zone.hour == 0 && zone.minute == some 0

/-! ### The instant -/

/-- Year, month and day. Without the name of a month the numbers are in the order of the standard
form if that is what was read or if the first one is no day, and otherwise the year comes last. -/
def date? (parts : Parts) : Option (Int × Int × Int) :=
  if parts.numbers.isEmpty then none
  else
    let first := parts.numbers.getD 0 1
    let second := parts.numbers.getD 1 1
    let third := parts.numbers.getD 2 1
    let (year, month, day) : Int × Int × Int :=
      match parts.month with
      | none =>
        if parts.isStandard || !isDay first then (first, second, third) else (third, first, second)
      | some month => if isDay first then (second, month, first) else (first, month, second)
    let year :=
      if parts.isStandard || year < 0 || 99 < year then year
      else if year ≤ 49 then year + 2000
      else year + 1900
    if isMonth month && isDay day then some (year, month, day) else none

/-- The milliseconds from the start of the day, at most a full day. -/
def clock? (parts : Parts) : Option Nat := do
  let hour := parts.time.getD 0 0
  let minute := parts.time.getD 1 0
  let second := parts.time.getD 2 0
  let millisecond := parts.time.getD 3 0
  let hour ←
    match parts.halfDay with
    | none => some hour
    | some start => if hour ≤ 12 then some (hour % 12 + start) else none
  let isWithin := decide (hour ≤ 23 ∧ minute ≤ 59 ∧ second ≤ 59 ∧ millisecond ≤ 999)
  let isMidnight := decide (hour = 24 ∧ minute = 0 ∧ second = 0 ∧ millisecond = 0)
  if isWithin || isMidnight then
    some (((hour * 60 + minute) * 60 + second) * 1000 + millisecond)
  else none

def instant? (parts : Parts) : Option Instant := do
  let (year, month, day) ← parts.date?
  let clock ← parts.clock?
  let ahead ← (parts.zone.map Zone.seconds?).getD (some 0)
  within? (dayNumber year month day * dayLength + clock - ahead * 1000)

/-! ### The standard form -/

def standardZone? (parts : Parts) : List Token → Option Parts
  | [] => some parts
  | [.word .zulu] => some { parts with zone := some (.ofHours 0) }
  | [.mark sign, .number clock 4] => offset? sign (clock / 100) (clock % 100)
  | [.mark sign, .number hour 2, .mark ':', .number minute 2] => offset? sign hour minute
  | _ => none
where
  offset? (sign : Char) (hour minute : Nat) : Option Parts :=
    if (sign = '+' ∨ sign = '-') ∧ hour ≤ 23 ∧ minute ≤ 59 then
      some { parts with zone := some ⟨sign = '-', hour, some minute⟩ }
    else none

/-- The time of the standard form, which ends the text. The hour twenty-four is midnight. -/
def standardTime? (parts : Parts) : List Token → Option Parts
  | .number hour 2 :: .mark ':' :: .number minute 2 :: rest =>
    let bound := if hour = 24 then 0 else 59
    if 24 < hour ∨ bound < minute then none
    else
      match rest with
      | .mark ':' :: .number second 2 :: rest =>
        if bound < second then none
        else
          match rest with
          | .mark '.' :: .number value width :: rest =>
            if hour = 24 ∧ 0 < value then none
            else
              standardZone?
                { parts with time := [hour, minute, second, thousandths value width] } rest
          | rest => standardZone? { parts with time := [hour, minute, second] } rest
      | rest => standardZone? { parts with time := [hour, minute] } rest
  | _ => none

/-- What follows the date: the end, a time, or something that is not of the standard form. -/
def afterDate? (parts : Parts) : List Token → Option (Parts × List Token)
  | [] => some ({ parts with zone := some (.ofHours 0), isStandard := true }, [])
  | .word .separator :: rest =>
    (standardTime? parts rest).map fun parts => ({ parts with isStandard := true }, [])
  | rest => some (parts, rest)

def afterMonth? (parts : Parts) : List Token → Option (Parts × List Token)
  | .mark '-' :: .number n 2 :: rest =>
    if isDay n then afterDate? { parts with numbers := parts.numbers ++ [(n : Int)] } rest
    else some (parts, .number n 2 :: rest)
  | .mark '-' :: rest => some (parts, rest)
  | rest => afterDate? parts rest

def afterYear? (year : Int) : List Token → Option (Parts × List Token)
  | .mark '-' :: .number n 2 :: rest =>
    if isMonth n then afterMonth? { numbers := [year, n] } rest
    else some ({ numbers := [year] }, .number n 2 :: rest)
  | .mark '-' :: rest => some ({ numbers := [year] }, rest)
  | rest => afterDate? { numbers := [year] } rest

/-- As much as has the standard form, and the tokens that are left to the free form. There is no
negative year zero. -/
def standard? : List Token → Option (Parts × List Token)
  | .mark '-' :: .number 0 6 :: rest => some ({}, .mark '-' :: rest)
  | .mark '-' :: .number year 6 :: rest => afterYear? (-year) rest
  | .mark '+' :: .number year 6 :: rest => afterYear? year rest
  | .number year 4 :: rest => afterYear? year rest
  | rest => some ({}, rest)

/-! ### The free form -/

def endsTime : Option Token → Bool
  | none => true
  | some token =>
    token = .blank || token = .word .zulu || token = .mark '+' || token = .mark '-'

def leading (sign : Char) (rest : List Token) : Nat :=
  if rest.head? = some (.mark sign) then 1 else 0

/-- Takes up a number that neither a colon nor a fraction follows. -/
def takePlainNumber? (parts : Parts) (n : Nat) (rest : List Token) : Option (Parts × Nat) :=
  if parts.expectsOffset n then
    some ({ parts with zone := parts.zone.map fun zone => { zone with minute := some n } }, 0)
  else if parts.expectsTime n then
    if endsTime rest.head? then some (parts.finishTime n, 0) else none
  else (parts.addNumber? n).map fun parts => (parts, leading '-' rest)

/-- Takes up a number, together with the marks that tell what it is. -/
def takeNumber? (parts : Parts) (n : Nat) : List Token → Option (Parts × Nat)
  | .mark ':' :: .mark ':' :: _ =>
    if parts.time.isEmpty then some ({ parts with time := [n, 0] }, 2) else none
  | .mark ':' :: rest => (parts.addTime? n).map fun parts => (parts, 1 + leading '.' rest)
  | .mark '.' :: rest =>
    if parts.expectsTime n then
      match rest with
      | .number value width :: _ =>
        some (({ parts with time := parts.time ++ [n] }).finishTime (thousandths value width), 2)
      | _ => none
    else (takePlainNumber? parts n rest).map fun (parts, used) => (parts, used + 1)
  | rest => takePlainNumber? parts n rest

def takeWord? (parts : Parts) (hasNumber : Bool) (word : Word) (rest : List Token) :
    Option (Parts × Nat) :=
  let skipped : Option (Parts × Nat) :=
    match rest with
    | .number .. :: _ => none
    | _ => if hasNumber then none else some (parts, 0)
  match word with
  | .month n => some ({ parts with month := some n }, leading '-' rest)
  | .halfDay start =>
    if parts.time.isEmpty then skipped else some ({ parts with halfDay := some start }, 0)
  | .zone hours =>
    if hasNumber then some ({ parts with zone := some (.ofHours hours) }, 0) else skipped
  | .zulu => if hasNumber then some ({ parts with zone := some (.ofHours 0) }, 0) else skipped
  | .separator | .unknown => skipped

/-- Takes up the sign of an offset with the number after it, which may be missing in front of a
colon. -/
def takeOffset? (parts : Parts) (isBehind : Bool) (rest : List Token) : Option (Parts × Nat) :=
  let (n, width, used) : Nat × Nat × Nat :=
    match rest with
    | .number n width :: _ => (n, width, 1)
    | _ => (0, 0, 0)
  let zone : Option Zone :=
    if (rest.drop used).head? = some (.mark ':') then some ⟨isBehind, n, none⟩
    else if width = 1 ∨ width = 2 then some ⟨isBehind, n, some 0⟩
    else if width = 3 ∨ width = 4 then some (.ofClock isBehind n)
    else none
  zone.map fun zone => ({ parts with zone := some zone }, used)

/-- Takes up a token; also tells how many tokens after it were used with it, and whether a number
has been read. -/
def take? (parts : Parts) (hasNumber : Bool) (token : Token) (rest : List Token) :
    Option (Parts × Bool × Nat) :=
  match token with
  | .number n _ => (takeNumber? parts n rest).map fun (parts, used) => (parts, true, used)
  | .word word =>
    (takeWord? parts hasNumber word rest).map fun (parts, used) => (parts, hasNumber, used)
  | .mark sign =>
    let isSign := sign == '+' || sign == '-'
    if isSign && (parts.isUniversal || !parts.time.isEmpty) then
      (takeOffset? parts (sign == '-') rest).map fun (parts, used) => (parts, true, used)
    else if (isSign || sign == ')') && hasNumber then none
    else some (parts, hasNumber, 0)
  | .blank | .other => some (parts, hasNumber, 0)

def free? (parts : Parts) (hasNumber : Bool) (tokens : List Token) : Option Parts :=
  match tokens with
  | [] => some parts
  | token :: rest =>
    match parts.take? hasNumber token rest with
    | some (parts, hasNumber, used) => parts.free? hasNumber (rest.drop used)
    | none => none
termination_by tokens.length
decreasing_by simp only [List.length_drop, List.length_cons]; omega

end Parts

def read? (text : String) : Option Instant := do
  let (parts, rest) ← Parts.standard? (tokens text.toList)
  let parts ← parts.free? (!parts.numbers.isEmpty) rest
  parts.instant?

end AngleSeries.Instant
