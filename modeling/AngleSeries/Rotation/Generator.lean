import AngleSeries.Double.Arithmetic
import AngleSeries.Sha256

/-!
# Pseudo-random draws

Draws come from a counter that grows by a constant and is mixed into thirty-two bits. The counter
is a binary64 number: it is not reduced, and beyond `2 ^ 53` its sums are rounded. Each call of an
oracle has a seed of its own, the first four bytes of the hash of seed and call number.
-/

namespace AngleSeries.Generator

-- Powers are the built-in ones, also where other instances are in scope.
attribute [local instance (2000)] instPowNat

def increment : Nat := 0x6d2b79f5

def advance (counter : Nat) : Nat :=
  let next := counter + increment
  if next < 2 ^ (53 : Nat) then next else Double.roundUnits next 1

def mix (t : UInt32) : UInt32 :=
  let r := (t ^^^ (t >>> 15)) * (1 ||| t)
  let r := r ^^^ (r + (r ^^^ (r >>> 7)) * (61 ||| r))
  r ^^^ (r >>> 14)

/-- The draw at a counter; as a number in `[0, 1)` it is the word over `2 ^ 32`. -/
def draw (counter : Nat) : UInt32 :=
  mix (UInt32.ofNat counter)

/-- The counter at draw number `n`, counted from one. -/
def counterAt (seed : UInt32) : Nat → Nat
  | 0 => seed.toNat
  | n + 1 => advance (counterAt seed n)

def wordsBelow (probability : Double) : Nat :=
  match probability with
  | .nan => 0
  | .infinite negative => if negative then 0 else 2 ^ (32 : Nat)
  | .finite negative units _ =>
    if negative then 0 else (units * 2 ^ (32 : Nat) + (unitsPerOne - 1)) / unitsPerOne

/-- Counts the states that pass a test, from the one after a given state on. -/
def tally (next : Nat → Nat) (test : Nat → Bool) : Nat → Nat → Nat → Nat
  | 0, _, passed => passed
  | count + 1, state, passed =>
    let state := next state
    tally next test count state (if test state then passed + 1 else passed)

/-- How many of the draws of a seed lie below a probability. -/
def count (seed : UInt32) (shots : Nat) (probability : Double) : Nat :=
  let bound := wordsBelow probability
  tally advance (fun counter => (draw counter).toNat < bound) shots seed.toNat 0

/-- The bytes of a word, least significant first. -/
def littleEndian (word : UInt32) : List UInt8 :=
  [word.toUInt8, (word >>> 8).toUInt8, (word >>> 16).toUInt8, (word >>> 24).toUInt8]

def swapBytes (word : UInt32) : UInt32 :=
  (word <<< 24) ||| ((word &&& (0xFF00 : UInt32)) <<< 8) |||
    ((word >>> 8) &&& (0xFF00 : UInt32)) ||| (word >>> 24)

def shotSeed (seed call : UInt32) : UInt32 :=
  swapBytes (Sha256.digest (littleEndian seed ++ littleEndian call)).a

end AngleSeries.Generator
