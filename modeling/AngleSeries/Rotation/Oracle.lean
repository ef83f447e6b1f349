import AngleSeries.Action
import AngleSeries.Double.Sine
import AngleSeries.Rotation.Generator
import AngleSeries.Value.Number

/-!
# Oracles

An oracle reports the probability of measuring one after a rotation by an angle. The analytic
oracle computes it; the sampled one estimates it from pseudo-random draws, with a fresh seed for
every call that it accepts. Both refuse a count of shots that is no positive safe integer, and a
refused call leaves no trace.
-/

namespace AngleSeries

abbrev Oracle (σ : Type) := Double → Value → Action σ Double

abbrev LooseOracle (σ : Type) := Double → Value → Action σ Value

/-- The probability of measuring one after a rotation by an angle. -/
def rotationProbability (angle : Double) : Double :=
  let amplitude := (angle / 2).sine
  amplitude * amplitude

namespace Oracle

variable {σ : Type}

/-- A count of shots, which has to be a positive safe integer. -/
def readShots (shots : Value) : Except Fault Nat :=
  match shots.number?.bind Double.toSafeInt? with
  | some n => if n ≤ 0 then shots.outOfRange .shots else .ok n.toNat
  | none => shots.outOfRange .shots

/-- Answers with the exact probability. -/
def analytic : Oracle σ := fun angle shots => do
  let _ ← Action.ofExcept (readShots shots)
  return rotationProbability angle

def estimate (seed : UInt32) (shots : Nat) (probability : Double) : Double :=
  Double.ofNat (Generator.count seed shots probability) / Double.ofNat shots

/-- Answers from draws; the environment counts the calls answered so far. -/
def sampled (seed : UInt32) : Oracle Nat := fun angle shots => do
  let shots ← Action.ofExcept (readShots shots)
  let call ← get
  set (call + 1)
  return estimate (Generator.shotSeed seed (UInt32.ofNat call)) shots (rotationProbability angle)

/-- Refuses every call with an acceptable count of shots. -/
def unusable : Oracle σ := fun _ shots => do
  let _ ← Action.ofExcept (readShots shots)
  throw .wrongKind

/-- The sampled oracle with a seed that has yet to be read. -/
def sampledBy (seed : Value) : Oracle Nat :=
  match seed.toDouble? with
  | some seed => sampled seed.toWord
  | none => unusable

/-- The oracle a name and a seed select; any other name selects the analytic one. -/
def select (kind seed : Value) : Oracle Nat :=
  if kind.isText "sampled" then sampledBy seed else analytic

def loose (oracle : Oracle σ) : LooseOracle σ := fun angle shots =>
  return .number (← oracle angle shots)

def ask (oracle : Oracle σ) (angle shots : Value) : Action σ Double :=
  match angle.toDouble? with
  | some angle => oracle angle shots
  | none => unusable .nan shots

end Oracle

/-- Always answers the same, and accepts any count of shots. -/
def LooseOracle.constant {σ : Type} (answer : Value) : LooseOracle σ := fun _ _ =>
  return answer

end AngleSeries
