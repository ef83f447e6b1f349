import AngleSeries.Double.Shortest
import AngleSeries.Text.Quoted

/-!
# Faults

Everything that can go wrong, by cause. `Fault.message` is the only place where the wording of a
fault is decided; a few causes are refusals of the host's own arithmetic and have no wording here.
-/

namespace AngleSeries

open Numeral

inductive Field where
  | pi
  | lambda
  | mu
  | x
  | hashHex
  | blockSize
  | crcValue
  deriving DecidableEq

def Field.name : Field → String
  | .pi => "pi"
  | .lambda => "lambda"
  | .mu => "mu"
  | .x => "x"
  | .hashHex => "hashHex"
  | .blockSize => "blockSize"
  | .crcValue => "crcValue"

inductive HashFlaw where
  | empty
  | foreignCharacter
  deriving DecidableEq

def HashFlaw.reason : HashFlaw → String
  | .empty => "no hex digits after prefix"
  | .foreignCharacter => "contains a non-hex character"

inductive Expectation where
  | decimal
  | finiteDecimal
  | safeInteger
  | integerText
  | text
  | nonNegative
  deriving DecidableEq

def Expectation.phrase : Expectation → String
  | .decimal => "a decimal number"
  | .finiteDecimal => "a finite decimal number"
  | .safeInteger => "a safe integer"
  | .integerText => "a base-10 integer"
  | .text => "a string"
  | .nonNegative => "a non-negative integer"

/-- A fault of one or more fields, given by their names. -/
inductive FieldFault where
  | unexpected (field received : Text) (expected : Expectation)
  | badHash (text : Text) (flaw : HashFlaw)
  | zeroDivisor (received : Text)
  | emptyBlock (blockSize crcValue : Int)
  deriving DecidableEq

namespace FieldFault

def fields : FieldFault → List Text
  | .unexpected field .. => [field]
  | .badHash .. => [Field.hashHex.name]
  | .zeroDivisor _ => [Field.mu.name]
  | .emptyBlock .. => [Field.blockSize.name, Field.crcValue.name]

def value : FieldFault → Text
  | .unexpected _ received _ => received
  | .badHash text _ => text
  | .zeroDivisor received => received
  | .emptyBlock blockSize crcValue => intText (blockSize + crcValue)

/-- What is said of a field that holds something else than expected. -/
def unexpectedText (field received expected : Text) : Text :=
  field ++ " must be " ++ expected ++ " (received " ++ received ++ ")"

def badHashText (shown reason : Text) : Text :=
  "Invalid hex string " ++ shown ++ ": " ++ reason

def zeroDivisorText (received : Text) : Text :=
  "mu cannot be 0 (received " ++ received ++ ")"

def emptyBlockText (blockSize crcValue total : Text) : Text :=
  "C = blockSize + crcValue must be positive (blockSize=" ++ blockSize ++ ", crcValue=" ++ crcValue
    ++ ", C=" ++ total ++ ")"

def message : FieldFault → Text
  | .unexpected field received expected => unexpectedText field received expected.phrase
  | .badHash text flaw => badHashText (Text.quote text) flaw.reason
  | .zeroDivisor received => zeroDivisorText received
  | .emptyBlock blockSize crcValue =>
    emptyBlockText (intText blockSize) (intText crcValue) (intText (blockSize + crcValue))

end FieldFault

/-- A value outside the range an operation is defined on. -/
inductive RangeFault where
  | zeroDenominator
  | unsafeExponent (received : Text)
  | notFinite (decimal : Text)
  | negativeHash (value : Int)
  | stepCounter (received : Text)
  | rolloverBits (received : Text)
  | beyondDouble (decimal : Text)
  | scale (received : Text)
  | shots (received : Text)
  | steps (received : Text)
  /-- A number without an integer value where an integer is needed. -/
  | notAnInteger
  | tooLarge
  deriving DecidableEq

def RangeFault.message? : RangeFault → Option Text
  | .zeroDenominator => some "Fraction denominator cannot be 0"
  | .unsafeExponent received =>
    some ("Fraction exponent must be a safe integer (received " ++ received ++ ")")
  | .notFinite decimal => some ("Cannot convert non-finite decimal " ++ decimal ++ " to a fraction")
  | .negativeHash value =>
    some ("Cannot encode negative integer " ++ intText value ++ " as a hash string")
  | .stepCounter received =>
    some ("Sequencer step counter must be a non-negative integer (received " ++ received ++ ")")
  | .rolloverBits received =>
    some ("hash-rollover bits must be a positive integer (received " ++ received ++ ")")
  | .beyondDouble decimal => some ("Value " ++ decimal ++ " does not fit a finite double")
  | .scale received => some ("Angle scale must be finite (received " ++ received ++ ")")
  | .shots received => some ("shots must be a positive integer (received " ++ received ++ ")")
  | .steps received => some ("steps must be a non-negative integer (received " ++ received ++ ")")
  | .notAnInteger => none
  | .tooLarge => none

inductive Severity where
  | error
  | warning
  deriving DecidableEq

def Severity.name : Severity → String
  | .error => "error"
  | .warning => "warning"

inductive PathStep where
  | key (name : Text)
  | index (position : Nat)
  deriving DecidableEq

/-- Something noteworthy in a run configuration. -/
structure Issue where
  code : Text
  message : Text
  path : List PathStep
  severity : Severity
  deriving DecidableEq

inductive Fault where
  | field (fault : FieldFault)
  | range (fault : RangeFault)
  | badConfig (message : Text) (issues : List Issue)
  | usage (message : Text) (flag : Option Text)
  | badDecimal (shown : Text)
  | nonFiniteNumber (received : Text)
  /-- A value a canonical document cannot hold, by the tag of its class. -/
  | unsupported (tag : Text)
  /-- A value of a kind that an operation is not defined on. -/
  | wrongKind
  | malformed
  | noInputs
  | raised (message : Text)
  /-- A fault of the system below, in its own words. -/
  | system (message : Text)
  deriving DecidableEq

namespace Fault

def message? : Fault → Option Text
  | .field fault => some fault.message
  | .range fault => fault.message?
  | .badConfig message _ => some message
  | .usage message _ => some message
  | .badDecimal shown => some ("[DecimalError] Invalid argument: " ++ shown)
  | .nonFiniteNumber received =>
    some ("Canonical JSON cannot encode non-finite numbers (received " ++ received ++ ")")
  | .unsupported tag => some ("Unsupported canonical JSON value of type [object " ++ tag ++ "]")
  | .wrongKind => none
  | .malformed => none
  | .noInputs =>
    some "Provide --config <file> or all of --pi --lambda --mu --x --hash --block-size --crc"
  | .raised message => some message
  | .system message => some message

end Fault

end AngleSeries
