import AngleSeries.Double.Reading
import AngleSeries.Fault
import AngleSeries.Run

/-!
# Command-line options

Options are read from left to right; most take the argument after them as their value, and a later
one replaces an earlier one of its kind. The seven inputs are all or nothing, and a configuration
file and inputs on the command line exclude each other.
-/

namespace AngleSeries.CommandLine

def usage {α : Type} (flag message : Text) : Except Fault α :=
  .error (.usage message (some flag))

def misuse {α : Type} (message : Text) : Except Fault α :=
  .error (.usage message none)

def inputFlag : Field → Text
  | .pi => "--pi"
  | .lambda => "--lambda"
  | .mu => "--mu"
  | .x => "--x"
  | .hashHex => "--hash"
  | .blockSize => "--block-size"
  | .crcValue => "--crc"

def inputFields : List Field := [.pi, .lambda, .mu, .x, .hashHex, .blockSize, .crcValue]

def inputOf? (flag : Text) : Option Field :=
  inputFields.find? fun field => inputFlag field == flag

abbrev Collected := Field → Option Text

def Collected.set (collected : Collected) (field : Field) (text : Text) : Collected :=
  fun other => if other = field then some text else collected other

abbrev InlineInputs := InputTexts

def draftOf (texts : InlineInputs) : Draft where
  pi := .string texts.pi
  lambda := .string texts.lambda
  mu := .string texts.mu
  x := .string texts.x
  hashHex := .string texts.hashHex
  blockSize := .string texts.blockSize
  crcValue := .string texts.crcValue

def join? (collected : Collected) : Option InlineInputs := do
  .some {
    pi := ← collected .pi
    lambda := ← collected .lambda
    mu := ← collected .mu
    x := ← collected .x
    hashHex := ← collected .hashHex
    blockSize := ← collected .blockSize
    crcValue := ← collected .crcValue
  }

def finishInputs (collected : Collected) : Except Fault (Option InlineInputs) :=
  let missing := inputFields.filter fun field => (collected field).isNone
  if missing.length = inputFields.length then .ok none
  else
    match join? collected with
    | some inputs => .ok (some inputs)
    | none => misuse ("Missing input flags: " ++ Text.join ", " (missing.map inputFlag))

def isFlag (text : Text) : Bool :=
  match text.chars with
  | '-' :: '-' :: _ => true
  | _ => false

/-- A flag with the value it takes, if it takes one. -/
inductive Group where
  | switch (flag : Text)
  | setting (flag value : Text)
  deriving DecidableEq

/-- Whether a flag takes a value; a flag that is not known has no shape. -/
inductive Shape where
  | switch
  | setting
  | unknown
  deriving DecidableEq

/-- Splits arguments into groups, up to the first argument that does not belong to one. -/
def split (shape : Text → Shape) : List Text → List Group × Option Fault
  | [] => ([], none)
  | flag :: rest =>
    match shape flag with
    | .unknown => ([], some (.usage ("Unknown option \"" ++ flag ++ "\".") (some flag)))
    | .switch =>
      let (groups, fault) := split shape rest
      (.switch flag :: groups, fault)
    | .setting =>
      let unfinished : Fault := .usage (flag ++ " requires a value.") (some flag)
      match rest with
      | [] => ([], some unfinished)
      | value :: rest =>
        if isFlag value then ([], some unfinished)
        else
          let (groups, fault) := split shape rest
          (.setting flag value :: groups, fault)

/-- Applies the groups of a command line in their order. A group that cannot be applied is reported
before an argument that belongs to no group, because it stands in front of it. -/
def scan {α : Type} (shape : Text → Shape) (apply : α → Group → Except Fault α) (start : α)
    (args : List Text) : Except Fault α := do
  let (groups, fault) := split shape args
  let options ← groups.foldlM apply start
  match fault with
  | some fault => .error fault
  | none => .ok options

/-- What an option is set to, unless that is the empty text. -/
def filled (option : Option Text) : Option Text :=
  option.filter fun text => !text.isEmpty

def hasConfig (config : Option Text) : Bool :=
  (filled config).isSome

def requireSingleSource (config : Option Text) (inputs : Option InlineInputs) :
    Except Fault Unit :=
  if hasConfig config && inputs.isSome then
    misuse "Use either --config <file> or the inline input flags, not both."
  else .ok ()

/-- A count of at least `lowest`, which is zero or one. -/
def readCount (flag text : Text) (lowest : Int) : Except Fault Double :=
  let value := Double.ofText text.string
  let kind := if lowest = 0 then "non-negative" else "positive"
  let refused : Except Fault Double :=
    usage flag (flag ++ " expects a " ++ kind ++ " integer (received \"" ++ text ++ "\").")
  match value.toSafeInt? with
  | some n => if n < lowest then refused else .ok value
  | none => refused

def readFinite (flag text : Text) : Except Fault Double :=
  let value := Double.ofText text.string
  if (Text.trim text.chars).isEmpty || !value.isFinite then
    usage flag (flag ++ " expects a finite number (received \"" ++ text ++ "\").")
  else .ok value

def readPort (flag text : Text) : Except Fault Double := do
  let value ← readCount flag text 0
  if Double.lt (Double.ofNat 65535) value then
    usage flag (flag ++ " expects a port between 0 and 65535 (received \"" ++ text ++ "\").")
  else .ok value

def readOracle (text : Text) : Except Fault OracleKind :=
  if text = "analytic" then .ok .analytic
  else if text = "sampled" then .ok .sampled
  else usage "--oracle" ("Unsupported oracle \"" ++ text ++ "\". Use analytic or sampled.")

inductive Format where
  | csv
  | json
  deriving DecidableEq

def Format.name : Format → String
  | .csv => "csv"
  | .json => "json"

def readFormat (text : Text) : Except Fault Format :=
  if text = "csv" then .ok .csv
  else if text = "json" then .ok .json
  else usage "--format" ("Unsupported format \"" ++ text ++ "\". Use csv or json.")

/-! ### The options of `value` -/

structure ValueOptions where
  config : Option Text
  inputs : Option InlineInputs
  json : Bool

structure ValueScan where
  config : Option Text := none
  json : Bool := false
  collected : Collected := fun _ => none

def valueShape (flag : Text) : Shape :=
  if (inputOf? flag).isSome ∨ flag = "--config" then .setting
  else if flag = "--json" then .switch
  else .unknown

def ValueScan.apply (scan : ValueScan) : Group → Except Fault ValueScan
  | .switch _ => .ok { scan with json := true }
  | .setting flag value =>
    match inputOf? flag with
    | some field => .ok { scan with collected := scan.collected.set field value }
    | none => .ok { scan with config := some value }

def parseValue (args : List Text) : Except Fault ValueOptions := do
  let scan ← scan valueShape ValueScan.apply {} args
  let inputs ← finishInputs scan.collected
  requireSingleSource scan.config inputs
  if !hasConfig scan.config && inputs.isNone then
    misuse "value requires --config <file> or the inline input flags."
  else .ok { config := scan.config, inputs, json := scan.json }

/-! ### The options of `run` -/

structure RunFlags where
  steps : Option Double := none
  scale : Option Double := none
  shots : Option Double := none
  seed : Option Double := none
  oracle : Option OracleKind := none

def RunFlags.overrides (flags : RunFlags) : Overrides where
  steps := flags.steps.map .number
  scale := flags.scale.map .number
  shots := flags.shots.map .number
  seed := flags.seed.map .number
  oracle := flags.oracle.map fun kind => .string kind.name

structure RunOptions where
  config : Option Text := none
  inputs : Option InlineInputs := none
  flags : RunFlags := {}
  format : Format := .csv
  output : Option Text := none
  broadcast : Option Double := none
  interval : Option Double := none

def runFlags : List Text :=
  ["--config", "--steps", "--scale", "--shots", "--seed", "--oracle", "--format", "--output",
    "--broadcast", "--interval"]

def runShape (flag : Text) : Shape :=
  if (inputOf? flag).isSome ∨ runFlags.contains flag then .setting
  else if flag = "--json" then .switch
  else .unknown

def RunOptions.set (options : RunOptions) (flag value : Text) : Except Fault RunOptions := do
  if flag = "--config" then .ok { options with config := some value }
  else if flag = "--steps" then
    .ok { options with flags.steps := some (← readCount flag value 0) }
  else if flag = "--scale" then
    .ok { options with flags.scale := some (← readFinite flag value) }
  else if flag = "--shots" then
    .ok { options with flags.shots := some (← readCount flag value 1) }
  else if flag = "--seed" then
    .ok { options with flags.seed := some (← readCount flag value 0) }
  else if flag = "--oracle" then
    .ok { options with flags.oracle := some (← readOracle value) }
  else if flag = "--format" then
    .ok { options with format := ← readFormat value }
  else if flag = "--output" then .ok { options with output := some value }
  else if flag = "--broadcast" then
    .ok { options with broadcast := some (← readPort flag value) }
  else
    .ok { options with interval := some (← readCount flag value 0) }

structure RunScan where
  options : RunOptions := {}
  collected : Collected := fun _ => none

def RunScan.apply (scan : RunScan) : Group → Except Fault RunScan
  | .switch _ => .ok { scan with options.format := .json }
  | .setting flag value =>
    match inputOf? flag with
    | some field => .ok { scan with collected := scan.collected.set field value }
    | none => do .ok { scan with options := ← scan.options.set flag value }

def parseRun (args : List Text) : Except Fault RunOptions := do
  let scan ← scan runShape RunScan.apply {} args
  let inputs ← finishInputs scan.collected
  requireSingleSource scan.options.config inputs
  .ok { scan.options with inputs }

end AngleSeries.CommandLine
