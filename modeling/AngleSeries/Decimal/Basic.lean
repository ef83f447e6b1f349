import AngleSeries.Rounding

/-!
# Decimals

A decimal is a coefficient without trailing zeros times a power of ten, or one of three special
values. The power of ten of its leading digit stays within `exponentLimit`: a larger one makes an
infinity, a smaller one a zero, both with the sign kept. Zero itself has a sign. With this
normal form two finite decimals are equal as data exactly when they are equal as signed numbers.
-/

namespace AngleSeries

open Numeral

/-- Greatest magnitude of the power of ten of a leading digit. -/
def exponentLimit : Int := 9000000000000000

/-- The power of ten of the leading digit of `coefficient · 10 ^ exponent`. -/
def leadOf (coefficient : Nat) (exponent : Int) : Int :=
  exponent + digitCount coefficient - 1

/-- The normal form of a finite decimal. -/
def Normal (coefficient : Nat) (exponent : Int) : Prop :=
  coefficient = 0 ∧ exponent = 0 ∨
    coefficient % 10 ≠ 0 ∧ -exponentLimit ≤ leadOf coefficient exponent ∧
      leadOf coefficient exponent ≤ exponentLimit

instance (coefficient : Nat) (exponent : Int) : Decidable (Normal coefficient exponent) :=
  inferInstanceAs (Decidable (_ ∨ _))

/-- A decimal number, an infinity or no number. -/
inductive Decimal where
  | nan
  | infinite (negative : Bool)
  | finite (negative : Bool) (coefficient : Nat) (exponent : Int)
      (normal : Normal coefficient exponent)
  deriving DecidableEq

namespace Decimal

def signedZero (negative : Bool) : Decimal :=
  .finite negative 0 0 (.inl ⟨rfl, rfl⟩)

/-- `coefficient · 10 ^ exponent`, brought into normal form. -/
def ofScaled (negative : Bool) (coefficient : Nat) (exponent : Int) : Decimal :=
  let stripped := stripZeros coefficient exponent
  if h : Normal stripped.1 stripped.2 then .finite negative stripped.1 stripped.2 h
  else if exponentLimit < leadOf stripped.1 stripped.2 then .infinite negative
  else signedZero negative

def ofInt (i : Int) : Decimal :=
  ofScaled (i < 0) i.natAbs 0

def isFinite : Decimal → Bool
  | .finite .. => true
  | _ => false

def isZero : Decimal → Bool
  | .finite _ coefficient _ _ => coefficient == 0
  | _ => false

/-- The exact value of a finite decimal; zero for the others. -/
def toRat : Decimal → Rat
  | .finite negative coefficient exponent _ =>
    (if negative then -1 else 1) * coefficient * (10 : Rat) ^ exponent
  | _ => 0

end Decimal

end AngleSeries
