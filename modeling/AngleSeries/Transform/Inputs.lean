import AngleSeries.Decimal.Text
import AngleSeries.Text.Basic

/-!
# Inputs of the transform

Three decimals, three integers and a hash text. Inputs are immutable, and nothing that can be
derived from them is stored with them.
-/

namespace AngleSeries

structure Inputs where
  pi : Decimal
  lambda : Decimal
  mu : Decimal
  x : Int
  hashHex : Text
  blockSize : Int
  crcValue : Int
  deriving DecidableEq

structure InputTexts where
  pi : Text
  lambda : Text
  mu : Text
  x : Text
  hashHex : Text
  blockSize : Text
  crcValue : Text
  deriving DecidableEq

def InputTexts.entries (texts : InputTexts) : List (Text × Text) := [
  ("pi", texts.pi),
  ("lambda", texts.lambda),
  ("mu", texts.mu),
  ("x", texts.x),
  ("hashHex", texts.hashHex),
  ("blockSize", texts.blockSize),
  ("crcValue", texts.crcValue)]

def Inputs.texts (inputs : Inputs) : InputTexts where
  pi := inputs.pi.text
  lambda := inputs.lambda.text
  mu := inputs.mu.text
  x := Numeral.intText inputs.x
  hashHex := inputs.hashHex
  blockSize := Numeral.intText inputs.blockSize
  crcValue := Numeral.intText inputs.crcValue

end AngleSeries
