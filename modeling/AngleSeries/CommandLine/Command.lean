import AngleSeries.CommandLine.Complaint
import AngleSeries.CommandLine.Documents
import AngleSeries.CommandLine.Help
import AngleSeries.CommandLine.Options

/-!
# Commands

A command line is answered by a pure function of its arguments and of the files it can read. The
answer says what is printed, with which code the program ends, and whether a file is to be written
first; if writing fails, the failure is printed in place of the answer.
Files are named by paths, and a path is resolved against the directory by its text alone: empty
segments and single dots vanish, and a double dot removes the segment before it.
-/

/-! ### Paths -/

namespace AngleSeries.Path

def push (reversed : List String) (segment : String) : List String :=
  if segment = "" ∨ segment = "." then reversed
  else if segment = ".." then reversed.tail
  else segment :: reversed

def segments (path : String) : List String :=
  ((path.splitOn "/").foldl push []).reverse

def join (segments : List String) : String :=
  "/" ++ "/".intercalate segments

def resolve (directory path : String) : String :=
  join (segments (if path.startsWith "/" then path else directory ++ "/" ++ path))

def parent (path : String) : String :=
  join (segments path).dropLast

end AngleSeries.Path

namespace AngleSeries.CommandLine

/-- What a command line can see of its surroundings: its directory and the files, by absolute
path. -/
structure Host where
  directory : String
  /-- The text of a file, or what the system says instead. -/
  read : String → Except Text Text

/-- What is printed, and the code the program ends with. -/
structure Output where
  stdout : Text := ""
  stderr : Text := ""
  code : Nat := 0
  deriving DecidableEq

structure Answer where
  /-- A file that has to be written before anything is printed: its path and its text. -/
  file : Option (String × Text) := none
  output : Output
  deriving DecidableEq

def printed (lines : List Text) : Text :=
  .concat (lines.map (· ++ "\n"))

def say (lines : List Text) : Answer where
  output := { stdout := printed lines }

def refuse (lines : List Text) : Answer where
  output := { stderr := printed lines, code := 1 }

def report (fault : Fault) : Answer :=
  refuse (Complaint.ofFault fault).lines

def Host.text (host : Host) (path : Text) : Except Fault Text :=
  match host.read (Path.resolve host.directory path.string) with
  | .ok text => .ok text
  | .error message => .error (.system message)

def wantsHelp (args : List Text) : Bool :=
  args.contains "--help" || args.contains "-h"

/-! ### Evaluating once -/

def valueInputs (host : Host) (options : ValueOptions) : Except Fault Inputs :=
  match filled options.config, options.inputs with
  | some path, _ => do .ok (← Config.require path (← host.text path)).inputs
  | none, some texts => Inputs.create (draftOf texts)
  | none, none => misuse "value requires --config <file> or the inline input flags."

def evaluateOnce (host : Host) (args : List Text) : Except Fault Answer :=
  if wantsHelp args then .ok (say [valueHelp])
  else do
    let options ← parseValue args
    let inputs ← valueInputs host options
    let evaluation ← inputs.evaluate
    if options.json then .ok (say [evaluation.toJson.pretty])
    else
      .ok (say [
        "y     = " ++ evaluation.y,
        "C     = " ++ evaluation.c,
        "ratio = " ++ evaluation.ratio,
        "S     = " ++ evaluation.value])

/-! ### Making a series -/

def planOf (host : Host) (options : RunOptions) : Except Fault Plan := do
  let overrides := options.flags.overrides
  let inputs ← match options.inputs with
    | some texts => (Inputs.create (draftOf texts)).map some
    | none => .ok none
  match filled options.config with
  | some path => Plan.resolve (some (path, ← host.text path)) inputs overrides
  | none => Plan.resolve none inputs overrides

def carryOut (plan : Plan) (interval : Option Double) : Except Fault Summary :=
  let paced := Plan.isPaced ((interval.map Value.number).getD .absent)
  (plan.execute paced plan.oracle.loose (fun _ => pure ()) 0).1

def bodyOf (format : Format) (summary : Summary) : Except Fault Text :=
  match format with
  | .json => summary.toJson.map Json.pretty
  | .csv => Record.csvTable summary.records

def makeSeries (host : Host) (args : List Text) : Except Fault Answer :=
  if wantsHelp args then .ok (say [runHelp])
  else do
    let options ← parseRun args
    let plan ← planOf host options
    let summary ← carryOut plan options.interval
    let body ← bodyOf options.format summary
    match filled options.output with
    | some path =>
      let target := Path.resolve host.directory path.string
      let lines := [
        "[run] " ++ summary.name ++ ": " ++ Numeral.natText summary.records.length
          ++ " records written to " ++ target,
        "[run] digest " ++ summary.digest]
      .ok { say lines with file := some (target, body ++ "\n") }
    | none => .ok (say [body])

/-! ### Validating a configuration -/

def acceptedLines (path : Text) (config : Config) : List Text :=
  let kinds := ", ".intercalate (config.rules.map RuleSpec.kind)
  ["✔ Run config valid: " ++ path,
    "  schema: " ++ config.schemaVersion,
    "  name:   " ++ config.metadata.name,
    "  rules:  " ++ (if kinds = "" then "none" else kinds),
    "  run:    " ++ config.run.steps.text ++ " steps, " ++ config.run.oracle.name ++ " oracle, "
      ++ config.run.shots.text ++ " shots"]

def acceptedJson (config : Config) (warnings : List Issue) : Json :=
  .object [
    ("status", .string "ok"),
    ("config", .object [
      ("name", .string config.metadata.name),
      ("schemaVersion", .string config.schemaVersion),
      ("rules", .ofNat config.rules.length),
      ("steps", .ofDouble config.run.steps)]),
    ("warnings", .array (warnings.map Issue.toJson))]

def refusedJson (refusal : Refusal) : Json :=
  let issues : Option (Text × Json) :=
    refusal.issues.map fun issues => ("issues", .array (issues.map Issue.toJson))
  .object (("status", .string "error") :: ("message", .string refusal.message) :: issues.toList)

def accept (path : Text) (flags : List Text) (reading : Reading Config) : Answer :=
  let warnings := Complaint.ofSeverity .warning reading.issues
  if flags.contains "--json" then say [(acceptedJson reading.value warnings).pretty]
  else
    let remarks : List Text :=
      if !warnings.isEmpty && flags.contains "--verbose" then
        "Warnings:" :: warnings.map Complaint.issueLine
      else []
    { output :=
        { stdout := printed (acceptedLines path reading.value), stderr := printed remarks } }

def reject (path : Text) (flags : List Text) (refusal : Refusal) : Answer :=
  if flags.contains "--json" then
    { output := { stdout := printed [(refusedJson refusal).pretty], code := 1 } }
  else
    let errors := Complaint.ofSeverity .error (refusal.issues.getD [])
    refuse (("✖ Run config invalid: " ++ path) :: ("  " ++ refusal.message)
      :: errors.map Complaint.issueLine)

def validateConfig (host : Host) (args : List Text) : Except Fault Answer :=
  match args with
  | [] => .ok (say [configHelp])
  | subcommand :: rest =>
    if subcommand = "--help" ∨ subcommand = "-h" then .ok (say [configHelp])
    else if subcommand ≠ "validate" then
      .ok (refuse ["Unknown config subcommand \"" ++ subcommand ++ "\"."])
    else
      let flags := rest.filter isFlag
      match filled (rest.find? fun arg => !isFlag arg) with
      | none => .ok (refuse ["config validate requires a config path."])
      | some path => do
        let text ← host.text path
        match Config.load text with
        | .ok reading => .ok (accept path flags reading)
        | .error refusal => .ok (reject path flags refusal)

/-! ### Reading a hash -/

def readHex (args : List Text) : Except Fault Answer :=
  match args with
  | [] => .ok (say [hexHelp])
  | text :: _ =>
    if text = "--help" ∨ text = "-h" then .ok (say [hexHelp])
    else do .ok (say [Numeral.natText (← Hash.parse text)])

/-! ### The program -/

def dispatch (host : Host) (args : List Text) : Except Fault Answer :=
  match args with
  | [] => .ok (say [mainHelp])
  | command :: rest =>
    if command = "--help" ∨ command = "-h" then .ok (say [mainHelp])
    else if command = "value" then evaluateOnce host rest
    else if command = "run" then makeSeries host rest
    else if command = "config" then validateConfig host rest
    else if command = "hex" then readHex rest
    else .ok (refuse ["Unknown command \"" ++ command ++ "\"."])

def answer (host : Host) (args : List Text) : Answer :=
  match dispatch host args with
  | .ok answer => answer
  | .error fault => report fault

/-- What is printed once the system has said whether the file of an answer could be written. -/
def Answer.conclude (answer : Answer) (failure : Option Text) : Output :=
  match failure with
  | none => answer.output
  | some message => (report (.system message)).output

/-- The file a command line reads, if it gets as far as reading one. -/
def source? (directory : String) (args : List Text) : Option String :=
  let path : Option Text :=
    match args with
    | [] => none
    | command :: rest =>
      if command = "value" then (parseValue rest).toOption.bind (·.config)
      else if command = "run" then (parseRun rest).toOption.bind (·.config)
      else if command = "config" ∧ rest.head? = some (.ofString "validate") then
        rest.tail.find? fun arg => !isFlag arg
      else none
  (filled path).map fun path => Path.resolve directory path.string

end AngleSeries.CommandLine
