import AngleSeries.Double.Arithmetic

/-!
# The sine

The one transcendental function of the library is taken from the machine, through the bit pattern
of a number. `sine` bounds what comes back by one in magnitude, so that this much holds whatever
the machine answers.
-/

namespace AngleSeries.Double

-- Powers are the built-in ones, also where other instances are in scope.
attribute [local instance (2000)] instPowNat

def toBits : Double → UInt64
  | .nan => 0x7FF8000000000000
  | .infinite negative => if negative then 0xFFF0000000000000 else 0x7FF0000000000000
  | .finite negative units _ =>
    let shift := units.log2 - 52
    let field :=
      if units < 2 ^ (52 : Nat) then units
      else (shift + 1) * 2 ^ (52 : Nat) + (units / 2 ^ shift - 2 ^ (52 : Nat))
    UInt64.ofNat (field + if negative then 2 ^ (63 : Nat) else 0)

def ofBits (bits : UInt64) : Double :=
  let field := bits.toNat % 2 ^ (63 : Nat)
  let negative := decide (2 ^ (63 : Nat) ≤ bits.toNat)
  let biased := field / 2 ^ (52 : Nat)
  let fraction := field % 2 ^ (52 : Nat)
  if biased = 2047 then if fraction = 0 then .infinite negative else .nan
  else if biased = 0 then ofUnits negative fraction
  else ofUnits negative ((2 ^ (52 : Nat) + fraction) * 2 ^ (biased - 1))

/-- The sine of a finite number as the machine computes it, of magnitude at most one. -/
def sine (x : Double) : Double :=
  if x.isFinite then
    match ofBits (Float.ofBits x.toBits).sin.toBits with
    | .finite negative units h =>
      if units ≤ unitsPerOne then .finite negative units h else ofUnits negative unitsPerOne
    | _ => signedZero false
  else .nan

end AngleSeries.Double
