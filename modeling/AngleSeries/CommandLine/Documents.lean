import AngleSeries.Run
import AngleSeries.Value.Document

/-!
# Printed documents

The JSON documents that the command line prints, with their members in the order in which a reader
expects them.
-/

namespace AngleSeries

def InputTexts.toJson (texts : InputTexts) : Json :=
  .object (texts.entries.map fun entry => (entry.1, .string entry.2))

def Evaluation.toJson (evaluation : Evaluation) : Json :=
  .object [
    ("inputs", evaluation.inputs.toJson),
    ("y", .string evaluation.y),
    ("c", .string evaluation.c),
    ("ratio", .string evaluation.ratio),
    ("value", .string evaluation.value)]

def State.toJson (state : State) : Json :=
  .object [("t", .ofDouble state.t), ("inputs", state.inputs.texts.toJson)]

def Summary.toJson (summary : Summary) : Except Fault Json := do
  let settings ← Value.toJsonMembers summary.settings.members
  let records ← Value.toJsonItems (summary.records.map Record.toValue)
  .ok (.object [
    ("name", .string summary.name),
    ("steps", .ofNat summary.records.length),
    ("settings", .object settings),
    ("records", .array records),
    ("final", summary.final.toJson),
    ("digest", .string summary.digest)])

def PathStep.toJson : PathStep → Json
  | .key name => .string name
  | .index position => .ofNat position

def Issue.toJson (issue : Issue) : Json :=
  .object [
    ("code", .string issue.code),
    ("message", .string issue.message),
    ("path", .array (issue.path.map PathStep.toJson)),
    ("severity", .string issue.severity.name)]

end AngleSeries
