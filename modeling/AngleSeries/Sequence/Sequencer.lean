import AngleSeries.Action
import AngleSeries.Sequence.Rule

/-!
# The sequencer

A sequencer owns one state, the step counter with the inputs, and replaces it as a whole on every
step. The commit policy decides what a step leaves behind whose inputs cannot be evaluated: the old
state if the step is evaluated first, the new one if it is committed first. The observer is told of
a step only after it has been evaluated and committed.
-/

namespace AngleSeries

/-- The step counter and the inputs at that step. -/
structure State where
  t : Double
  inputs : Inputs
  deriving DecidableEq

/-- Whether a step is evaluated or committed first. -/
inductive CommitPolicy where
  | validateFirst
  | commitFirst
  deriving DecidableEq

def CommitPolicy.name : CommitPolicy → String
  | .validateFirst => "validate-first"
  | .commitFirst => "commit-first"

/-- The policy a value names; anything but the name of the other one is `validateFirst`. -/
def CommitPolicy.ofValue : Value → CommitPolicy
  | .string name => if name = CommitPolicy.commitFirst.name then .commitFirst else .validateFirst
  | _ => .validateFirst

/-- A policy as it was given, or the name of `validateFirst` if none was. -/
def CommitPolicy.given (policy : Value) : Value :=
  policy.orElse (.string CommitPolicy.validateFirst.name)

def State.start (t : Value) (inputs : Inputs) : Except Fault State :=
  match t with
  | .number x =>
    if x.isSafeInteger && !x.lt 0 then .ok ⟨x, inputs⟩
    else .error (.range (.stepCounter x.text))
  | other => other.outOfRange .stepCounter

structure Sequencer (σ : Type) where
  rule : Rule
  policy : CommitPolicy
  observer : State → Decimal → Action σ Unit

namespace Sequencer

variable {σ : Type}

def unobserved (rule : Rule) (policy : CommitPolicy) : Sequencer σ :=
  ⟨rule, policy, fun _ _ => pure ()⟩

def currentValue : Action (State × σ) Decimal := do
  let (state, _) ← get
  Action.ofExcept state.inputs.secret

def commit (state : State) : Action (State × σ) Unit :=
  modify fun env => (state, env.2)

/-- Evaluates a candidate and makes it the state, in the order of the policy. -/
def adopt (policy : CommitPolicy) (candidate : State) : Action (State × σ) Decimal :=
  match policy with
  | .commitFirst => do
    commit candidate
    Action.ofExcept candidate.inputs.secret
  | .validateFirst => do
    let value ← Action.ofExcept candidate.inputs.secret
    commit candidate
    return value

def step (sequencer : Sequencer σ) : Action (State × σ) Decimal := do
  let (current, _) ← get
  let inputs ← Action.ofExcept (sequencer.rule current.inputs current.t)
  let candidate : State := ⟨current.t + 1, inputs⟩
  let value ← adopt sequencer.policy candidate
  (sequencer.observer candidate value).inSecond
  return value

inductive Call where
  | step
  | value
  | state
  deriving DecidableEq

/-- Carries out a call; asking for the state alone returns no value. -/
def perform (sequencer : Sequencer σ) : Call → Action (State × σ) (Option Decimal)
  | .step => do return some (← sequencer.step)
  | .value => do return some (← currentValue)
  | .state => return none

end Sequencer

end AngleSeries
