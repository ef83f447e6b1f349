import AngleSeries.Transform.Draft

/-!
# Update rules

A rule makes the inputs of the next step from the inputs of this one and the step counter. Rules
never touch the counter. A composite applies its parts from left to right within one step, and the
inputs in between are never evaluated.
-/

namespace AngleSeries

-- Powers are the built-in ones, also where other instances are in scope.
attribute [local instance (2000)] instPowNat

abbrev Rule := Inputs → Double → Except Fault Inputs

inductive RuleSpec where
  | incrementX (delta : Int)
  | incrementCrc (delta : Int)
  | hashRollover (bits : Double)
  deriving DecidableEq

def RuleSpec.kind : RuleSpec → String
  | .incrementX _ => "increment-x"
  | .incrementCrc _ => "increment-crc"
  | .hashRollover _ => "hash-rollover"

def RuleSpec.toValue (spec : RuleSpec) : Value :=
  .object .plain [("kind", .string spec.kind),
    match spec with
    | .incrementX delta => ("delta", .integer delta)
    | .incrementCrc delta => ("delta", .integer delta)
    | .hashRollover bits => ("bits", .number bits)]

/-- The integer an amount stands for; an absent one is one. -/
def Value.amount : Value → Except Fault Int
  | .absent => .ok 1
  | value => value.wholeNumber

namespace Rule

/-- Adds an amount to `x`; the amount is one if it is absent. -/
def incrementX (delta : Value) : Rule := fun inputs _ => do
  let delta ← delta.amount
  inputs.update { x := .integer (inputs.x + delta) }

/-- Adds an amount to the checksum; the amount is one if it is absent. -/
def incrementCrc (delta : Value) : Rule := fun inputs _ => do
  let delta ← delta.amount
  inputs.update { crcValue := .integer (inputs.crcValue + delta) }

/-- The first width of a hash that is too large for its modulus. -/
def rolloverLimit : Int := 2 ^ (30 : Nat)

/-- Adds one to the number behind the hash, modulo `2 ^ bits`, and writes it back with
`⌈bits / 4⌉` digits. -/
def rollHash (bits : Nat) : Rule := fun inputs _ => do
  let y ← inputs.y
  inputs.update { hashHex := .string (Hash.write ((y + 1) % 2 ^ bits) ((bits + 3) / 4)) }

/-- A rollover for a width that has yet to be checked; the width is sixteen if it is absent. -/
def hashRollover (bits : Value) : Except Fault Rule :=
  match bits with
  | .absent => .ok (rollHash 16)
  | other =>
    match other.number?.bind Double.toInt? with
    | some n =>
      if n < 1 then other.outOfRange .rolloverBits
      else if rolloverLimit ≤ n then .error (.range .tooLarge)
      else .ok (rollHash n.toNat)
    | none => other.outOfRange .rolloverBits

/-- Applies rules from left to right within one step. -/
def compose (rules : List Rule) : Rule := fun inputs t =>
  rules.foldlM (fun current rule => rule current t) inputs

def patch (changes : Value) : Rule := fun inputs _ => do
  inputs.update (← Draft.ofValue changes)

def fail (message : Text) : Rule := fun _ _ =>
  .error (.raised message)

/-- Applies a rule at one value of the step counter only, or always if none is given. -/
def onlyAt (at? : Value) (rule : Rule) : Rule := fun inputs t =>
  match at? with
  | .absent => rule inputs t
  | .number step => if step.same t then rule inputs t else .ok inputs
  | _ => .ok inputs

/-- Fails at every step. -/
def unusable : Rule := fun _ _ =>
  .error .wrongKind

/-- The rule of a specification that has not been checked. A wrong amount shows when the rule is
applied, and so does an unknown kind. -/
def ofValue (spec : Value) : Except Fault Rule :=
  let kind := spec.member "kind"
  if !spec.isPresent then .error .wrongKind
  else if kind.isText "increment-x" then .ok (incrementX (spec.member "delta"))
  else if kind.isText "increment-crc" then .ok (incrementCrc (spec.member "delta"))
  else if kind.isText "hash-rollover" then hashRollover (spec.member "bits")
  else .ok unusable

theorem ofValue_incrementX (delta : Int) :
    ofValue (RuleSpec.incrementX delta).toValue = .ok (incrementX (.integer delta)) := by
  have kind : (RuleSpec.incrementX delta).toValue.member "kind" = .string "increment-x" := rfl
  have found : (Value.string "increment-x").isText "increment-x" = true := by decide
  simp only [ofValue, kind, found]
  rfl

theorem ofValue_incrementCrc (delta : Int) :
    ofValue (RuleSpec.incrementCrc delta).toValue = .ok (incrementCrc (.integer delta)) := by
  have kind : (RuleSpec.incrementCrc delta).toValue.member "kind" = .string "increment-crc" := rfl
  have passed : (Value.string "increment-crc").isText "increment-x" = false := by decide
  have found : (Value.string "increment-crc").isText "increment-crc" = true := by decide
  simp only [ofValue, kind, passed, found]
  rfl

theorem ofValue_hashRollover (bits : Double) :
    ofValue (RuleSpec.hashRollover bits).toValue = hashRollover (.number bits) := by
  have kind : (RuleSpec.hashRollover bits).toValue.member "kind" = .string "hash-rollover" := rfl
  have passedX : (Value.string "hash-rollover").isText "increment-x" = false := by decide
  have passedCrc : (Value.string "hash-rollover").isText "increment-crc" = false := by decide
  have found : (Value.string "hash-rollover").isText "hash-rollover" = true := by decide
  simp only [ofValue, kind, passedX, passedCrc, found]
  rfl

/-- The rule of a list of specifications. A single one needs no composite. -/
def ofValues (specs : List Value) : Except Fault Rule := do
  match ← specs.mapM ofValue with
  | [rule] => .ok rule
  | rules => .ok (compose rules)

end Rule

end AngleSeries
