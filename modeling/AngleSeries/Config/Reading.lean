import AngleSeries.Config.Basic
import AngleSeries.Value.Document

/-!
# Validating run configurations

Each section of a payload is read for itself. A reading is the value that was found, or a stand-in
for it, together with the issues met on the way; nothing stops at the first issue. The payload is
accepted if no issue is an error, and then no part of the configuration is a stand-in.
-/

namespace AngleSeries

open Numeral

structure Reading (α : Type) where
  value : α
  issues : List Issue

def Fault.wording (fault : Fault) : Text :=
  fault.message?.getD ""

/-- An issue that rejects the payload. -/
def Issue.fatal (code message : Text) (path : List PathStep) : Issue :=
  ⟨code, message, path, .error⟩

/-- An issue that does not. -/
def Issue.remark (code message : Text) (path : List PathStep) : Issue :=
  ⟨code, message, path, .warning⟩

namespace Config

/-! ### Version and metadata -/

def majorOf (version : Text) : List Char :=
  version.chars.takeWhile (· != '.')

def readVersion (payload : Value) : Reading (Option Text) :=
  let version := (payload.member "schemaVersion").string?
  let path := [PathStep.key "schemaVersion"]
  let given := version.getD ""
  if given = "" then
    ⟨version, [.remark "config/schemaVersion"
      ("Run config has no schemaVersion; assuming " ++ currentVersion) path]⟩
  else if majorOf given = majorOf currentVersion then ⟨version, []⟩
  else
    ⟨version, [.fatal "config/schemaVersion"
      ("Unsupported schemaVersion " ++ given ++ "; expected " ++ currentVersion) path]⟩

def untitled : Metadata := ⟨"untitled", none⟩

def readMetadata (payload : Value) : Reading Metadata :=
  let path := [PathStep.key "metadata"]
  match payload.member "metadata" with
  | .absent =>
    ⟨untitled, [.remark "metadata/missing" "Run config has no metadata; using \"untitled\"" path]⟩
  | part =>
    if !part.isRecord then
      ⟨untitled, [.fatal "metadata/type" "metadata must be an object" path]⟩
    else
      let name := ((part.member "name").string?).getD ""
      let description := (part.member "description").string?
      if name = "" then
        ⟨⟨untitled.name, description⟩,
          [.fatal "metadata/name" "metadata.name must be a non-empty string"
            (path ++ [.key "name"])]⟩
      else ⟨⟨name, description⟩, []⟩

/-! ### Inputs -/

def fieldPath (field : Field) : List PathStep :=
  [.key "inputs", .key field.name]

def fieldCode (field : Field) (what : Text) : Text :=
  "inputs/" ++ field.name ++ "/" ++ what

/-- The outcome of reading a field as an option and an issue. -/
def settle {α : Type} (field : Field) (outcome : Except Fault α) : Reading (Option α) :=
  match outcome with
  | .ok value => ⟨some value, []⟩
  | .error fault => ⟨none, [.fatal (fieldCode field "invalid") fault.wording (fieldPath field)]⟩

/-- A decimal field. A number is accepted with a remark. -/
def readDecimal (part : Value) (field : Field) : Reading (Option Decimal) :=
  match part.member field.name with
  | .number x =>
    let reading := settle field (Value.toDecimal (.number x) field.name)
    { reading with
      issues := .remark (fieldCode field "number")
        (field.name ++ " was given as a JSON number and may have lost digits; write it as a string")
        (fieldPath field) :: reading.issues }
  | .string text => settle field (Value.toDecimal (.string text) field.name)
  | _ =>
    ⟨none, [.fatal (fieldCode field "type") (field.name ++ " must be a decimal string")
      (fieldPath field)]⟩

def readInteger (part : Value) (field : Field) : Reading (Option Int) :=
  match part.member field.name with
  | .number x => settle field (Value.toInteger (.number x) field.name)
  | .string text => settle field (Value.toInteger (.string text) field.name)
  | _ =>
    ⟨none, [.fatal (fieldCode field "type") (field.name ++ " must be an integer or integer string")
      (fieldPath field)]⟩

def readHash (part : Value) : Reading (Option Text) :=
  match part.member Field.hashHex.name with
  | .string text =>
    if Hash.isHash text then ⟨some text, []⟩
    else
      ⟨some text, [.fatal (fieldCode .hashHex "invalid")
        ("hashHex " ++ Text.quote text ++ " is not a hexadecimal string") (fieldPath .hashHex)]⟩
  | _ =>
    ⟨none, [.fatal (fieldCode .hashHex "type") "hashHex must be a string" (fieldPath .hashHex)]⟩

def negativeIssues (field : Field) (value : Option Int) : List Issue :=
  match value with
  | some n =>
    if n < 0 then
      [.fatal (fieldCode field "negative")
        (field.name ++ " must not be negative (received " ++ intText n ++ ")") (fieldPath field)]
    else []
  | none => []

def divisorIssues (mu : Option Decimal) : List Issue :=
  match mu with
  | some mu =>
    if mu.isZero then [.fatal (fieldCode .mu "zero") "mu cannot be 0" (fieldPath .mu)] else []
  | none => []

def blockIssues (blockSize crcValue : Option Int) : List Issue :=
  match blockSize, crcValue with
  | some b, some c =>
    if b + c ≤ 0 then
      [.fatal "inputs/c/non-positive"
        ("blockSize + crcValue must be positive (blockSize=" ++ intText b ++ ", crcValue="
          ++ intText c ++ ")") [.key "inputs"]]
    else []
  | _, _ => []

def joinInputs (pi lambda mu : Option Decimal) (x : Option Int) (hashHex : Option Text)
    (blockSize crcValue : Option Int) : Option Inputs := do
  .some {
    pi := ← pi
    lambda := ← lambda
    mu := ← mu
    x := ← x
    hashHex := ← hashHex
    blockSize := ← blockSize
    crcValue := ← crcValue
  }

def readInputs (payload : Value) : Reading (Option Inputs) :=
  let part := payload.member "inputs"
  if !part.isRecord then
    ⟨none, [.fatal "inputs/type" "inputs must be an object" [.key "inputs"]]⟩
  else
    let pi := readDecimal part .pi
    let lambda := readDecimal part .lambda
    let mu := readDecimal part .mu
    let x := readInteger part .x
    let blockSize := readInteger part .blockSize
    let crcValue := readInteger part .crcValue
    let hashHex := readHash part
    { value := joinInputs pi.value lambda.value mu.value x.value hashHex.value blockSize.value
        crcValue.value
      issues := pi.issues ++ lambda.issues ++ mu.issues ++ x.issues ++ blockSize.issues
        ++ crcValue.issues ++ hashHex.issues ++ negativeIssues .blockSize blockSize.value
        ++ negativeIssues .crcValue crcValue.value ++ divisorIssues mu.value
        ++ blockIssues blockSize.value crcValue.value }

/-! ### Rules -/

/-- The greatest width of a hash that a configuration may ask for. -/
def maxRolloverBits : Int := 4096

def rulePath (index : Nat) : List PathStep :=
  [.key "rules", .index index]

/-- The amount of an increment, for the field it is added to; an absent one is one. -/
def readDelta (rule : Value) (field : Field) (path : List PathStep) : Reading (Option Int) :=
  let path := path ++ [.key "delta"]
  let settle (value : Value) : Reading (Option Int) :=
    match value.toInteger field.name with
    | .ok delta => ⟨some delta, []⟩
    | .error fault => ⟨none, [.fatal "rules/delta/invalid" fault.wording path]⟩
  match (rule.member "delta").orElse (.number 1) with
  | .number x => settle (.number x)
  | .string text => settle (.string text)
  | _ => ⟨none, [.fatal "rules/delta/type" "delta must be an integer" path]⟩

/-- The width of a rollover; an absent one is sixteen. -/
def readBits (rule : Value) (path : List PathStep) : Reading (Option Double) :=
  let refused : Reading (Option Double) :=
    ⟨none, [.fatal "rules/bits/invalid"
      ("bits must be an integer between 1 and " ++ intText maxRolloverBits)
      (path ++ [.key "bits"])]⟩
  match (rule.member "bits").orElse (.number 16) with
  | .number x =>
    match x.toInt? with
    | some n => if 1 ≤ n ∧ n ≤ maxRolloverBits then ⟨some x, []⟩ else refused
    | none => refused
  | _ => refused

def readRule (rule : Value) (path : List PathStep) : Except Fault (Reading (Option RuleSpec)) :=
  if !rule.isRecord then
    .ok ⟨none, [.fatal "rules/type" "Each rule must be an object" path]⟩
  else
    let kind := rule.member "kind"
    if kind.isText "increment-x" then
      let delta := readDelta rule .x path
      .ok ⟨delta.value.map .incrementX, delta.issues⟩
    else if kind.isText "increment-crc" then
      let delta := readDelta rule .crcValue path
      .ok ⟨delta.value.map .incrementCrc, delta.issues⟩
    else if kind.isText "hash-rollover" then
      let bits := readBits rule path
      .ok ⟨bits.value.map .hashRollover, bits.issues⟩
    else do
      let shown ← kind.documentText
      .ok ⟨none, [.fatal "rules/kind"
        ("Unknown rule kind " ++ shown ++ "; expected increment-x, increment-crc or hash-rollover")
        (path ++ [.key "kind"])]⟩

def readRulesFrom (index : Nat) : List Value → Except Fault (Reading (List RuleSpec))
  | [] => .ok ⟨[], []⟩
  | rule :: rules => do
    let first ← readRule rule (rulePath index)
    let rest ← readRulesFrom (index + 1) rules
    .ok ⟨first.value.toList ++ rest.value, first.issues ++ rest.issues⟩

def readRules (payload : Value) : Except Fault (Reading (List RuleSpec)) :=
  let path := [PathStep.key "rules"]
  match payload.member "rules" with
  | .absent => .ok ⟨RuleSpec.defaults, []⟩
  | .array [] =>
    .ok ⟨[], [.remark "rules/empty" "rules is empty; inputs will not change between steps" path]⟩
  | .array rules => readRulesFrom 0 rules
  | _ => .ok ⟨[], [.fatal "rules/type" "rules must be an array" path]⟩

/-! ### Settings -/

def settingPath (key : Text) : List PathStep :=
  [.key "run", .key key]

def readCount (part : Value) (key : Text) (fallback : Double) (lowest : Nat) :
    Reading Double :=
  let refused : Reading Double :=
    ⟨fallback, [.fatal ("run/" ++ key)
      ("run." ++ key ++ " must be an integer >= " ++ natText lowest) (settingPath key)]⟩
  match part.member key with
  | .absent => ⟨fallback, []⟩
  | .number x =>
    match x.toSafeInt? with
    | some n => if (lowest : Int) ≤ n then ⟨x, []⟩ else refused
    | none => refused
  | _ => refused

def readScale (part : Value) (fallback : Double) : Reading Double :=
  let refused : Reading Double :=
    ⟨fallback, [.fatal "run/scale" "run.scale must be a finite number" (settingPath "scale")]⟩
  match part.member "scale" with
  | .absent => ⟨fallback, []⟩
  | .number x => if x.isFinite then ⟨x, []⟩ else refused
  | _ => refused

def readOracle (part : Value) (fallback : OracleKind) : Reading OracleKind :=
  match part.member "oracle" with
  | .absent => ⟨fallback, []⟩
  | given =>
    if given.isText OracleKind.analytic.name then ⟨.analytic, []⟩
    else if given.isText OracleKind.sampled.name then ⟨.sampled, []⟩
    else
      ⟨fallback, [.fatal "run/oracle" "run.oracle must be \"analytic\" or \"sampled\""
        (settingPath "oracle")]⟩

def readPolicy (part : Value) (fallback : CommitPolicy) : Reading CommitPolicy :=
  match part.member "commitPolicy" with
  | .absent => ⟨fallback, []⟩
  | given =>
    if given.isText CommitPolicy.validateFirst.name then ⟨.validateFirst, []⟩
    else if given.isText CommitPolicy.commitFirst.name then ⟨.commitFirst, []⟩
    else
      ⟨fallback, [.fatal "run/commitPolicy"
        "run.commitPolicy must be \"validate-first\" or \"commit-first\""
        (settingPath "commitPolicy")]⟩

def readSettings (payload : Value) : Reading RunSettings :=
  let fallback := RunSettings.default
  match payload.member "run" with
  | .absent => ⟨fallback, []⟩
  | part =>
    if !part.isRecord then
      ⟨fallback, [.fatal "run/type" "run must be an object" [.key "run"]]⟩
    else
      let steps := readCount part "steps" fallback.steps 0
      let shots := readCount part "shots" fallback.shots 1
      let seed := readCount part "seed" fallback.seed 0
      let scale := readScale part fallback.scale
      let oracle := readOracle part fallback.oracle
      let policy := readPolicy part fallback.commitPolicy
      { value := {
          steps := steps.value
          scale := scale.value
          shots := shots.value
          oracle := oracle.value
          seed := seed.value
          commitPolicy := policy.value }
        issues := steps.issues ++ shots.issues ++ seed.issues ++ scale.issues ++ oracle.issues
          ++ policy.issues }

/-! ### The whole payload -/

def validate (payload : Value) : Except Fault (Reading Config) :=
  if !payload.isRecord then
    let message := "Run config root must be an object"
    .error (.badConfig message [.fatal "config/type" message []])
  else do
    let version := readVersion payload
    let metadata := readMetadata payload
    let inputs := readInputs payload
    let rules ← readRules payload
    let settings := readSettings payload
    let issues := version.issues ++ metadata.issues ++ inputs.issues ++ rules.issues
      ++ settings.issues
    let rejected : Fault := .badConfig "Run config validation failed" issues
    if issues.any fun issue => issue.severity = .error then .error rejected
    else
      match inputs.value with
      | none => .error rejected
      | some found =>
        .ok {
          value := {
            schemaVersion := version.value.getD currentVersion
            metadata := metadata.value
            inputs := found
            rules := rules.value
            run := settings.value }
          issues }

end Config

end AngleSeries
