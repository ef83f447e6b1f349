import AngleSeries.Double.Basic

/-!
# Arithmetic on binary64 numbers

Each operation computes its exact result in units and rounds it once. The remainder is exact as it
stands. Comparisons are false as soon as one side is not a number.
-/

namespace AngleSeries.Double

-- Powers are the built-in ones, also where other instances are in scope.
attribute [local instance (2000)] instPowNat

def neg : Double → Double
  | .nan => .nan
  | .infinite negative => .infinite (!negative)
  | .finite negative units h => .finite (!negative) units h

/-- The rounded sum. Zeros of opposite sign, and a number and its negative, make positive zero. -/
def add : Double → Double → Double
  | .nan, _ => .nan
  | _, .nan => .nan
  | .infinite a, .infinite b => if a = b then .infinite a else .nan
  | .infinite a, .finite .. => .infinite a
  | .finite .., .infinite b => .infinite b
  | .finite a m _, .finite b n _ =>
    ofSum (a && b) ((if a then -(m : Int) else m) + (if b then -(n : Int) else n))

def sub (x y : Double) : Double :=
  add x (neg y)

def mul : Double → Double → Double
  | .nan, _ => .nan
  | _, .nan => .nan
  | .infinite a, .infinite b => .infinite (a ^^ b)
  | .infinite a, .finite b n _ => if n = 0 then .nan else .infinite (a ^^ b)
  | .finite a m _, .infinite b => if m = 0 then .nan else .infinite (a ^^ b)
  | .finite a m _, .finite b n _ => ofQuotient (a ^^ b) (m * n) unitsPerOne

def div : Double → Double → Double
  | .nan, _ => .nan
  | _, .nan => .nan
  | .infinite _, .infinite _ => .nan
  | .infinite a, .finite b _ _ => .infinite (a ^^ b)
  | .finite a _ _, .infinite b => signedZero (a ^^ b)
  | .finite a m _, .finite b n _ =>
    if n = 0 then if m = 0 then .nan else .infinite (a ^^ b)
    else ofQuotient (a ^^ b) (m * unitsPerOne) n

/-- The remainder of the division rounded towards zero; it has the sign of the dividend. -/
def rem : Double → Double → Double
  | .nan, _ => .nan
  | _, .nan => .nan
  | .infinite _, _ => .nan
  | .finite a m h, .infinite _ => .finite a m h
  | .finite a m _, .finite _ n _ => if n = 0 then .nan else ofUnits a (m % n)

/-- Strictly less, infinities included; zeros of either sign are equal. -/
def lt : Double → Double → Bool
  | .nan, _ => false
  | _, .nan => false
  | .infinite a, .infinite b => a && !b
  | .infinite a, .finite .. => a
  | .finite .., .infinite b => !b
  | .finite a m _, .finite b n _ =>
    decide ((if a then -(m : Int) else m) < (if b then -(n : Int) else n))

/-- Equal as numbers: zeros of either sign are equal, and not-a-number equals nothing. -/
def same : Double → Double → Bool
  | .infinite a, .infinite b => a == b
  | .finite a m _, .finite b n _ =>
    decide ((if a then -(m : Int) else m) = (if b then -(n : Int) else n))
  | _, _ => false

instance : Add Double := ⟨add⟩
instance : Sub Double := ⟨sub⟩
instance : Neg Double := ⟨neg⟩
instance : Mul Double := ⟨mul⟩
instance : Div Double := ⟨div⟩
instance : Mod Double := ⟨rem⟩

/-- How many of the natural numbers, taken in order, lie below the number. For infinity the bound
exceeds every finite number. -/
def naturalsBelow : Double → Nat
  | .nan => 0
  | .infinite negative => if negative then 0 else 2 ^ (1024 : Nat)
  | .finite negative units _ =>
    if negative then 0 else (units + (unitsPerOne - 1)) / unitsPerOne

/-- The greatest integer that is not above the number, if it is finite. -/
def floor? (x : Double) : Option Int :=
  x.signedUnits?.map fun units => units.fdiv unitsPerOne

end AngleSeries.Double
