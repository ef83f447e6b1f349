import AngleSeries.Text.Basic

/-!
# Ordered members

The members of an object come in a fixed order: first the keys that are array indices, by value,
then all other keys in the order in which they were first put. Putting a key again replaces its
value and leaves it in place.
-/

namespace AngleSeries

open Numeral

abbrev Members (α : Type) := List (Text × α)

namespace Members

variable {α β : Type}

/-- The number a key stands for, if the key is the canonical decimal of a number below
`2 ^ 32 - 1`. -/
def index? (key : Text) : Option Nat :=
  let digits := key.chars
  if digits.isEmpty || !digits.all isDecimalDigit || 10 < digits.length then none
  else
    let n := ofDigits 10 digits
    if n < 4294967295 ∧ toDigits 10 n = digits then some n else none

/-- Whether a member with key `key` goes in front of one with key `other`. -/
def goesBefore (key other : Text) : Bool :=
  match index? key, index? other with
  | some i, some j => decide (i < j)
  | some _, none => true
  | none, _ => false

def insertNew (key : Text) (value : α) : Members α → Members α
  | [] => [(key, value)]
  | member :: rest =>
    if goesBefore key member.1 then (key, value) :: member :: rest
    else member :: insertNew key value rest

def replace (key : Text) (value : α) : Members α → Members α
  | [] => []
  | member :: rest =>
    if member.1 = key then (key, value) :: rest else member :: replace key value rest

def put (members : Members α) (key : Text) (value : α) : Members α :=
  if members.any fun member => member.1 == key then replace key value members
  else insertNew key value members

/-- Puts all members of a list, from left to right. -/
def ofList (entries : List (Text × α)) : Members α :=
  entries.foldl (fun members entry => members.put entry.1 entry.2) []

def get? (members : Members α) (key : Text) : Option α :=
  (members.find? fun member => member.1 == key).map (·.2)

def keys (members : Members α) : List Text :=
  members.map (·.1)

end Members

end AngleSeries
