import AngleSeries.Decimal.Text
import AngleSeries.Double.Arithmetic
import AngleSeries.Fault
import AngleSeries.Value.Text

/-!
# Rotation angles

A value becomes an angle by discarding whole turns from its nearest binary64 number and scaling
what is left. The value cannot be recovered from the angle.
-/

namespace AngleSeries.Angle

-- Powers are the built-in ones, also where other instances are in scope.
attribute [local instance (2000)] instPowNat

/-- The binary64 number nearest to two pi, in units. -/
def turnUnits : Nat := 7074237752028440 * 2 ^ (1024 : Nat)

/-- A full turn. -/
def tau : Double := Double.ofUnits false turnUnits

/-- The remainder with the sign of the divisor. A tiny negative remainder can round up to the
divisor itself and then counts as a whole turn. -/
def floorMod (value divisor : Double) : Double :=
  let remainder := value % divisor
  if !remainder.same 0 && (remainder.lt 0 != divisor.lt 0) then
    let wrapped := remainder + divisor
    if wrapped.same divisor then 0 else wrapped
  else if remainder.same 0 then 0
  else remainder

/-- The scale a value stands for; an absent one is one. -/
def readScale (scale : Value) : Except Fault Double :=
  match scale with
  | .absent => .ok 1
  | .number x => if x.isFinite then .ok x else .error (.range (.scale x.text))
  | other => other.outOfRange .scale

/-- The angle of a value: `scale · (value mod 2π)`. -/
def ofDecimal (value : Decimal) (scale : Value) : Except Fault Double :=
  let nearest := value.toDouble
  if !nearest.isFinite then .error (.range (.beyondDouble value.text))
  else do
    let scale ← readScale scale
    .ok (scale * floorMod nearest tau)

end AngleSeries.Angle
