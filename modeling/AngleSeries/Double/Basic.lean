import AngleSeries.Rounding

/-!
# Binary64 numbers

A finite binary64 number is a whole number of *units*, the unit being the least positive number
`2 ^ -1074`. A number of units is representable when its binary digits below the leading fifty-three
are all zero and it stays below `2 ^ 1024` in value. In this form sums and remainders are integer
arithmetic, and an inexact result is one exact quotient of units that `ofQuotient` rounds once, to
nearest with ties to even.
-/

namespace AngleSeries

-- Powers are the built-in ones, also where other instances are in scope.
attribute [local instance (2000)] instPowNat

/-- The binary logarithm of one, in units. -/
def oneBits : Nat := 1074

/-- The binary logarithm of the first power of two beyond the finite numbers, in units. -/
def limitBits : Nat := 2098

def unitsPerOne : Nat := 2 ^ oneBits

/-- The first power of two beyond the finite numbers, in units. -/
def unitsLimit : Nat := 2 ^ limitBits

/-- Numbers of units that a finite binary64 number can have. -/
def Representable (units : Nat) : Prop :=
  units % 2 ^ (units.log2 - 52) = 0 ∧ units < unitsLimit

instance (units : Nat) : Decidable (Representable units) :=
  inferInstanceAs (Decidable (_ ∧ _))

/-- A binary64 number. Zero has a sign; not-a-number has no payload. -/
inductive Double where
  | nan
  | infinite (negative : Bool)
  | finite (negative : Bool) (units : Nat) (representable : Representable units)
  deriving DecidableEq

namespace Double

theorem representable_zero : Representable 0 :=
  ⟨Nat.zero_mod _, Nat.two_pow_pos limitBits⟩

def signedZero (negative : Bool) : Double :=
  .finite negative 0 representable_zero

/-- A whole number of units, which becomes infinite above the range. -/
def ofUnits (negative : Bool) (units : Nat) : Double :=
  if h : Representable units then .finite negative units h else .infinite negative

/-- The nearest number of units with at most fifty-three significant binary digits. -/
def roundUnits (n d : Nat) : Nat :=
  let step := 2 ^ ((n / d).log2 - 52)
  roundHalfEven n (d * step) * step

def ofQuotient (negative : Bool) (n d : Nat) : Double :=
  ofUnits negative (roundUnits n d)

/-- The number nearest to a sum of units; a sum of zero takes the sign given for it. -/
def ofSum (zeroNegative : Bool) (sum : Int) : Double :=
  if sum = 0 then signedZero zeroNegative
  else ofQuotient (sum < 0) sum.natAbs 1

def ofInt (i : Int) : Double :=
  ofQuotient (i < 0) (i.natAbs * unitsPerOne) 1

def ofNat (n : Nat) : Double :=
  ofInt n

instance (n : Nat) : OfNat Double n := ⟨ofNat n⟩

def isFinite : Double → Bool
  | .finite .. => true
  | _ => false

def isZero : Double → Bool
  | .finite _ units _ => units == 0
  | _ => false

def signedUnits? : Double → Option Int
  | .finite negative units _ => some (if negative then -(units : Int) else units)
  | _ => none

/-- The integer a number equals, if it equals one. -/
def toInt? : Double → Option Int
  | .finite negative units _ =>
    if units % unitsPerOne = 0 then
      let magnitude : Int := (units / unitsPerOne : Nat)
      some (if negative then -magnitude else magnitude)
    else none
  | _ => none

/-- The greatest integer below which every integer is a binary64 number. -/
def maxSafe : Int := 2 ^ (53 : Nat) - 1

/-- The integer a number equals, if it is one of at most `2 ^ 53 - 1` in magnitude. -/
def toSafeInt? (x : Double) : Option Int :=
  x.toInt?.filter fun i => decide (-maxSafe ≤ i ∧ i ≤ maxSafe)

def isSafeInteger (x : Double) : Bool :=
  x.toSafeInt?.isSome

/-- The number rounded towards zero and taken modulo `2 ^ 32`; zero if it is not finite. -/
def toWord : Double → UInt32
  | .finite negative units _ =>
    let magnitude : Int := (units / unitsPerOne : Nat)
    UInt32.ofNat ((if negative then -magnitude else magnitude) % 2 ^ (32 : Nat)).toNat
  | _ => 0

/-- The exact value of a finite number; zero for the others. -/
def toRat (x : Double) : Rat :=
  (x.signedUnits?.getD 0 : Int) / (unitsPerOne : Nat)

end Double

end AngleSeries
