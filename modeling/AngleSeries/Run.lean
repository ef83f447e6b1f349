import AngleSeries.Canonical
import AngleSeries.Config.Text
import AngleSeries.Series
import AngleSeries.Sha256
import AngleSeries.Value.Parts

/-!
# Runs

A plan is what a run needs: a name, inputs, rules and settings. Rules and settings come from a
configuration or from the defaults, but may as well be values that nobody has checked; what is wrong
with them shows when the run uses them. A summary ends with a digest, the hash of the canonical text
of everything that went into the run and came out of it.
-/

namespace AngleSeries

structure Settings where
  steps : Value
  scale : Value
  shots : Value
  oracle : Value
  seed : Value
  commitPolicy : Value
  /-- Settings that no run uses; they only tell one run from another. -/
  others : List (Text × Value) := []
  /-- What stands for all settings in a document, if anything does. -/
  substitute : Option Value := none

/-- The settings that are to be replaced, and those that are to be added. -/
structure Overrides where
  steps : Option Value := none
  scale : Option Value := none
  shots : Option Value := none
  oracle : Option Value := none
  seed : Option Value := none
  commitPolicy : Option Value := none
  others : List (Text × Value) := []
  substitute : Option Value := none

namespace Settings

/-- The names of the settings that a run uses. -/
def names : List Text :=
  ["steps", "scale", "shots", "oracle", "seed", "commitPolicy"]

def ofRunSettings (run : RunSettings) : Settings where
  steps := .number run.steps
  scale := .number run.scale
  shots := .number run.shots
  oracle := .string run.oracle.name
  seed := .number run.seed
  commitPolicy := .string run.commitPolicy.name

/-- The settings with some of them replaced, even by an absent value. -/
def override (settings : Settings) (overrides : Overrides) : Settings where
  steps := overrides.steps.getD settings.steps
  scale := overrides.scale.getD settings.scale
  shots := overrides.shots.getD settings.shots
  oracle := overrides.oracle.getD settings.oracle
  seed := overrides.seed.getD settings.seed
  commitPolicy := overrides.commitPolicy.getD settings.commitPolicy
  others := settings.others ++ overrides.others
  substitute := overrides.substitute <|> settings.substitute

def members (settings : Settings) : List (Text × Value) :=
  ("steps", settings.steps) :: ("scale", settings.scale) :: ("shots", settings.shots)
    :: ("oracle", settings.oracle) :: ("seed", settings.seed)
    :: ("commitPolicy", settings.commitPolicy) :: settings.others

def toValue (settings : Settings) : Value :=
  match settings.substitute with
  | some value => .standIn value
  | none => .object .plain settings.members

end Settings

/-- The overrides that a value spells out by its own members. A member counts even if it is
absent. -/
def Overrides.ofValue (value : Value) : Overrides :=
  let members := value.ownMembers
  { steps := Members.get? members "steps"
    scale := Members.get? members "scale"
    shots := Members.get? members "shots"
    oracle := Members.get? members "oracle"
    seed := Members.get? members "seed"
    commitPolicy := Members.get? members "commitPolicy"
    others := members.filter fun member => !Settings.names.contains member.1
    substitute := value.substitute? }

structure Plan where
  name : Text
  inputs : Inputs
  /-- Specifications of rules, unchecked. -/
  rules : List Value
  settings : Settings

structure Summary where
  name : Text
  settings : Settings
  records : List Record
  final : State
  digest : String

/-! ### Documents of a run -/

def InputTexts.toValue (texts : InputTexts) : Value :=
  .object .plain (texts.entries.map fun entry => (entry.1, .string entry.2))

namespace Plan

def adHocName : Text := "ad-hoc"

def adHoc (inputs : Inputs) (rules : List Value) (overrides : Overrides) : Plan where
  name := adHocName
  inputs := inputs
  rules := rules
  settings := (Settings.ofRunSettings .default).override overrides

def ofConfig (config : Config) (overrides : Overrides) : Plan where
  name := config.metadata.name
  inputs := config.inputs
  rules := config.rules.map RuleSpec.toValue
  settings := (Settings.ofRunSettings config.run).override overrides

/-- A plan from a configuration text with its source, or else from inputs. -/
def resolve (source : Option (Text × Text)) (inputs : Option Inputs) (overrides : Overrides) :
    Except Fault Plan :=
  match source, inputs with
  | some (name, text), _ => (Config.require name text).map (ofConfig · overrides)
  | none, some inputs => .ok (adHoc inputs (RuleSpec.defaults.map RuleSpec.toValue) overrides)
  | none, none => .error .noInputs

def identity (plan : Plan) (records : List Record) : Value :=
  .object .plain [
    ("inputs", plan.inputs.texts.toValue),
    ("rules", .array plan.rules),
    ("run", plan.settings.toValue),
    ("records", .array (records.map Record.toValue))]

/-- The hash of the canonical text of everything that identifies a run. -/
def digest (plan : Plan) (records : List Record) : Except Fault String := do
  let text ← Canonical.write (plan.identity records) .absent
  .ok (Sha256.hashText text)

def oracle (plan : Plan) : Oracle Nat :=
  Oracle.select plan.settings.oracle plan.settings.seed

/-- Carries out a plan with an oracle and a sink for the records. A paced run takes its records one
at a time. -/
def execute {σ : Type} (plan : Plan) (paced : Bool) (oracle : LooseOracle σ)
    (sink : Record → Action σ Unit) : Action σ Summary := do
  let rule ← Action.ofExcept (Rule.ofValues plan.rules)
  let setup : Setup σ := {
    sequencer := .unobserved rule (.ofValue plan.settings.commitPolicy)
    encoding := ⟨plan.settings.scale, plan.settings.shots⟩
    oracle
    sink }
  let records :=
    if paced then setup.runPaced plan.settings.steps else setup.run plan.settings.steps
  let (records, final) ← Action.withPrivate ⟨0, plan.inputs⟩ records
  let digest ← Action.ofExcept (plan.digest records)
  return { name := plan.name, settings := plan.settings, records, final, digest }

def isPaced (pause : Value) : Bool :=
  match pause.toDouble? with
  | some milliseconds => Double.lt 0 milliseconds
  | none => false

end Plan

end AngleSeries
