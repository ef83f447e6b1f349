import AngleSeries.Rotation.Angle
import AngleSeries.Rotation.Oracle
import AngleSeries.Sequence.Sequencer

/-!
# Time series

A record is taken at the current state: the secret value, its angle and the probability that the
oracle reports. It is handed to the sink and only then the sequencer takes its step, so that a
record is never lost to a step that fails. A table of records is written from their members, so
that records from elsewhere can be written as well.
-/

namespace AngleSeries

/-- How values are turned into oracle calls: scale and count of shots, unchecked. -/
structure Encoding where
  scale : Value
  shots : Value

structure Record where
  t : Double
  s : String
  theta : Double
  /-- The answer of the oracle, which is a number unless the oracle is a loose one. -/
  p1 : Value
  expZ : Double

namespace Record

def csvHeader : Text := "t,S,theta,p1,expZ"

def anglePlaces : Nat := 8

def sharePlaces : Nat := 6

/-- A record that has not been checked as a line of a table. Its numbers may be decimals. -/
def csvLine (record : Value) : Except Fault Text := do
  let t ← (record.member "t").plain
  let s ← (record.member "S").plain
  let theta ← (record.member "theta").fixed anglePlaces
  let p1 ← (record.member "p1").fixed sharePlaces
  let expZ ← (record.member "expZ").fixed sharePlaces
  .ok (Text.join "," [t, s, theta, p1, expZ])

def csvLines (records : Value) : Except Fault (List Text) :=
  match records with
  | .array items => items.mapM csvLine
  | _ => .error .wrongKind

def csvSheet (lines : List Text) : Text :=
  Text.join "\n" (csvHeader :: lines)

def toValue (record : Record) : Value :=
  .object .plain [
    ("t", .number record.t),
    ("S", .string record.s),
    ("theta", .number record.theta),
    ("p1", record.p1),
    ("expZ", .number record.expZ)]

def csvTable (records : List Record) : Except Fault Text := do
  .ok (csvSheet (← records.mapM fun record => csvLine record.toValue))

end Record

structure Setup (σ : Type) where
  sequencer : Sequencer σ
  encoding : Encoding
  oracle : LooseOracle σ
  sink : Record → Action σ Unit

namespace Setup

variable {σ : Type}

def observe (setup : Setup σ) : Action (State × σ) Record := do
  let value ← Sequencer.currentValue
  let theta ← Action.ofExcept (Angle.ofDecimal value setup.encoding.scale)
  let p1 ← (setup.oracle theta setup.encoding.shots).inSecond
  let (state, _) ← get
  let share ← Action.ofExcept p1.toDouble
  return { t := state.t, s := value.text, theta, p1, expZ := 1 - share - share }

def advance (setup : Setup σ) : Action (State × σ) Record := do
  let record ← setup.observe
  (setup.sink record).inSecond
  let _ ← setup.sequencer.step
  return record

def simulate (setup : Setup σ) : Nat → Action (State × σ) (List Record)
  | 0 => return []
  | n + 1 => do
    let record ← setup.advance
    let rest ← setup.simulate n
    return record :: rest

/-- A count of steps, which has to be a safe integer that is not negative. -/
def readSteps (steps : Value) : Except Fault Nat :=
  match steps.number?.bind Double.toSafeInt? with
  | some n => if n < 0 then steps.outOfRange .steps else .ok n.toNat
  | none => steps.outOfRange .steps

def run (setup : Setup σ) (steps : Value) : Action (State × σ) (List Record) := do
  let steps ← Action.ofExcept (readSteps steps)
  setup.simulate steps

def naturalsBelow (bound : Value) : Except Fault Nat :=
  match bound with
  | .integer n => .ok n.toNat
  | other => other.toDouble.map Double.naturalsBelow

/-- Rounds of one record each, whose records come behind those taken before. -/
def takeSingly (setup : Setup σ) (taken : List Record) : Nat → Action (State × σ) (List Record)
  | 0 => return taken
  | rounds + 1 => do
    let next ← setup.run (.number 1)
    setup.takeSingly (taken ++ next) rounds

/-- Takes records in rounds, as many as there are natural numbers below `steps`. -/
def runPaced (setup : Setup σ) (steps : Value) : Action (State × σ) (List Record) := do
  let rounds ← Action.ofExcept (naturalsBelow steps)
  setup.takeSingly [] rounds

end Setup

end AngleSeries
