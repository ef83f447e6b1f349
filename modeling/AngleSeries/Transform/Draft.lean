import AngleSeries.Transform.Evaluation
import AngleSeries.Value.Parts

/-!
# Drafts of inputs

A draft holds a loose value for each input. `Draft.normalize` turns every value into the type of
its field, the hash first and the others in their order, and stops at the first one that does not
fit. `Inputs.create` also refuses inputs that the transform cannot evaluate; `Inputs.update` does
not, because whether a step may leave such inputs behind is for the sequencer to decide.
-/

namespace AngleSeries

open Numeral

structure Draft where
  pi : Value := .absent
  lambda : Value := .absent
  mu : Value := .absent
  x : Value := .absent
  hashHex : Value := .absent
  blockSize : Value := .absent
  crcValue : Value := .absent

namespace Value

/-- The decimal that a text, a number, an integer, a decimal or a record of one stands for, not
necessarily a finite one. -/
def readDecimal : Value → Except Fault Decimal
  | .string text =>
    match Decimal.ofText text with
    | .ok d => .ok d
    | .error shown => .error (.badDecimal shown)
  | .number x => .ok (Decimal.ofDouble x)
  | .integer i => .ok (Decimal.ofInt i)
  | .decimal d => .ok d
  | other => do
    if other.isDecimalRecord then other.decimalOfRecord
    else .error (.badDecimal (← other.plain))

def reject {α : Type} (value : Value) (field : Text) (expected : Expectation) : Except Fault α :=
  match value.shown? with
  | some shown => .error (.field (.unexpected field shown expected))
  | none => .error .wrongKind

def toDecimal (value : Value) (field : Text) : Except Fault Decimal :=
  match value.readDecimal with
  | .error _ => value.reject field .decimal
  | .ok d => if d.isFinite then .ok d else value.reject field .finiteDecimal

/-- The integer for a field: an integer of any size, a safe integer as a number, or a text of
decimal digits with an optional sign and blanks around it. -/
def toInteger (value : Value) (field : Text) : Except Fault Int :=
  match value with
  | .integer i => .ok i
  | .number x =>
    match x.toSafeInt? with
    | some i => .ok i
    | none => value.reject field .safeInteger
  | .string text =>
    match readInt? (Text.trim text.chars) with
    | some i => .ok i
    | none => value.reject field .integerText
  | _ => .error .wrongKind

def toHash (value : Value) : Except Fault Text :=
  match value with
  | .string text => .ok text
  | _ => value.reject Field.hashHex.name .text

end Value

namespace Draft

def normalize (draft : Draft) : Except Fault Inputs := do
  let hashHex ← draft.hashHex.toHash
  let pi ← draft.pi.toDecimal Field.pi.name
  let lambda ← draft.lambda.toDecimal Field.lambda.name
  let mu ← draft.mu.toDecimal Field.mu.name
  let x ← draft.x.toInteger Field.x.name
  let blockSize ← draft.blockSize.toInteger Field.blockSize.name
  let crcValue ← draft.crcValue.toInteger Field.crcValue.name
  .ok { pi, lambda, mu, x, hashHex, blockSize, crcValue }

/-- The fields of the draft that are present, and the fields of the inputs for the others. -/
def filledFrom (draft : Draft) (inputs : Inputs) : Draft where
  pi := draft.pi.orElse (.decimal inputs.pi)
  lambda := draft.lambda.orElse (.decimal inputs.lambda)
  mu := draft.mu.orElse (.decimal inputs.mu)
  x := draft.x.orElse (.integer inputs.x)
  hashHex := draft.hashHex.orElse (.string inputs.hashHex)
  blockSize := draft.blockSize.orElse (.integer inputs.blockSize)
  crcValue := draft.crcValue.orElse (.integer inputs.crcValue)

/-- The members of a value as a draft; there has to be a value. -/
def ofValue (value : Value) : Except Fault Draft :=
  if value.isPresent then
    .ok {
      pi := value.member "pi"
      lambda := value.member "lambda"
      mu := value.member "mu"
      x := value.member "x"
      hashHex := value.member "hashHex"
      blockSize := value.member "blockSize"
      crcValue := value.member "crcValue" }
  else .error .wrongKind

end Draft

namespace Inputs

def requireNonNegative (value : Int) (field : Field) : Except Fault Unit :=
  if value < 0 then .error (.field (.unexpected field.name (intText value) .nonNegative))
  else .ok ()

/-- Inputs from a draft, all of whose fields the transform can evaluate. -/
def create (draft : Draft) : Except Fault Inputs := do
  let inputs ← draft.normalize
  requireNonNegative inputs.blockSize .blockSize
  requireNonNegative inputs.crcValue .crcValue
  let _ ← inputs.secret
  .ok inputs

/-- Inputs with the fields that a draft names replaced. -/
def update (inputs : Inputs) (changes : Draft) : Except Fault Inputs :=
  (changes.filledFrom inputs).normalize

end Inputs

end AngleSeries
