import AngleSeries.Rotation.Oracle
import AngleSeries.Sequence.Sequencer

/-!
# Run configurations

A configuration names a run and fixes its inputs, its rules and its settings. Everything in it has
been checked.
-/

namespace AngleSeries

structure Metadata where
  name : Text
  description : Option Text
  deriving DecidableEq

inductive OracleKind where
  | analytic
  | sampled
  deriving DecidableEq

def OracleKind.name : OracleKind → String
  | .analytic => "analytic"
  | .sampled => "sampled"

structure RunSettings where
  steps : Double
  scale : Double
  shots : Double
  oracle : OracleKind
  seed : Double
  commitPolicy : CommitPolicy
  deriving DecidableEq

def RunSettings.default : RunSettings where
  steps := 20
  scale := 1
  shots := 2000
  oracle := .sampled
  seed := 1337
  commitPolicy := .validateFirst

def RuleSpec.defaults : List RuleSpec := [.incrementX 1]

structure Config where
  schemaVersion : Text
  metadata : Metadata
  inputs : Inputs
  rules : List RuleSpec
  run : RunSettings
  deriving DecidableEq

def Config.currentVersion : Text := "1.0.0"

end AngleSeries
