import AngleSeries.CommandLine.Complaint
import AngleSeries.Double.Arithmetic
import AngleSeries.Value.Document
import AngleSeries.Value.Number

/-!
# Complaints from loose parts

A fault can also be reported by its parts, none of which has been checked. Parts are shown by their
plain texts; a part without one cannot be reported, and neither can a list that is no list.
-/

namespace AngleSeries.Complaint

/-- A message; an absent one is empty. -/
def messageOf : Value → Except Fault Text
  | .absent => .ok ""
  | value => value.plain

/-- The names of fields: one text, or a list in which a missing name leaves a gap. -/
def fieldNames : Value → Except Fault (List Text)
  | .string name => .ok [name]
  | .array items => items.mapM fun item => if item.gap then .ok "" else item.plain
  | _ => .error .wrongKind

def ofInputParts (message field value : Value) : Except Fault Complaint := do
  .ok (.input (← fieldNames field) (← value.plain) (← messageOf message))

def ofBadHashParts (hash reason : Value) : Except Fault Complaint := do
  let message := FieldFault.badHashText (← hash.documentText) (← reason.plain)
  .ok (.input [Field.hashHex.name] (← hash.plain) message)

def ofZeroDivisorParts (value : Value) : Except Fault Complaint := do
  let value ← value.plain
  .ok (.input [Field.mu.name] value (FieldFault.zeroDivisorText value))

def ofUnexpectedParts (field value expected : Value) : Except Fault Complaint := do
  let message := FieldFault.unexpectedText (← field.plain) (← value.plain) (← expected.plain)
  .ok (.input (← fieldNames field) (← value.plain) message)

/-- Whether a value is added as a number and not as a text. -/
def isScalar : Value → Bool
  | .absent | .null | .bool _ | .number _ | .integer _ => true
  | _ => false

/-- The text of a sum: integers of any size and binary64 numbers do not mix, and what is no number
is appended as a text. -/
def totalText (a b : Value) : Except Fault Text :=
  match a, b with
  | .integer m, .integer n => .ok (Numeral.intText (m + n))
  | a, b => do
    if isScalar a && isScalar b then .ok ((← a.toDouble) + (← b.toDouble)).text
    else .ok ((← a.plain) ++ (← b.plain))

def ofEmptyBlockParts (blockSize crcValue : Value) : Except Fault Complaint := do
  let total ← totalText blockSize crcValue
  let message := FieldFault.emptyBlockText (← blockSize.plain) (← crcValue.plain) total
  .ok (.input [Field.blockSize.name, Field.crcValue.name] total message)

/-- The issue that a value describes, if it is an error. -/
def errorIssue? (issue : Value) : Except Fault (Option Issue) := do
  if !issue.isPresent then .error .wrongKind
  else if (issue.member "severity").isText Severity.error.name then
    .ok (some {
      code := ← (issue.member "code").plain
      message := ← (issue.member "message").plain
      path := []
      severity := .error })
  else .ok none

/-- A bad configuration by its message and its issues, of which only the errors are shown. -/
def ofConfigParts (message issues : Value) : Except Fault Complaint := do
  match issues with
  | .array items =>
    .ok (.config (← messageOf message) ((← items.mapM errorIssue?).filterMap id))
  | _ => .error .wrongKind

/-- Anything that was raised: an error by its message, anything else by its plain text. -/
def ofRaised : Value → Except Fault Complaint
  | .error message => .ok (.other message)
  | value =>
    match value.label? with
    | some text => .ok (.other text)
    | none => .error .wrongKind

end AngleSeries.Complaint
