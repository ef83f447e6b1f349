import AngleSeries.Text.Basic

/-!
# Quoted text

A text between double quotes. The quote, the backslash and the units below the space are escaped:
five of them by a letter, the others by four lower-case hexadecimal digits, and so is a surrogate
without its partner. Everything else stands for itself.
-/

namespace AngleSeries.Text

open Numeral

def hexQuad (n : Nat) : List Char :=
  [digitChar (n / 4096 % 16), digitChar (n / 256 % 16), digitChar (n / 16 % 16),
    digitChar (n % 16)]

def asciiUnits (chars : List Char) : List UInt16 :=
  chars.map fun c => UInt16.ofNat c.toNat

/-- A unit as it stands between quotes, unless it belongs to a pair. -/
def escapeUnit (unit : UInt16) : List UInt16 :=
  if unit = 0x22 then asciiUnits ['\\', '"']
  else if unit = 0x5C then asciiUnits ['\\', '\\']
  else if unit = 8 then asciiUnits ['\\', 'b']
  else if unit = 9 then asciiUnits ['\\', 't']
  else if unit = 10 then asciiUnits ['\\', 'n']
  else if unit = 12 then asciiUnits ['\\', 'f']
  else if unit = 13 then asciiUnits ['\\', 'r']
  else if unit < 0x20 || isHigh unit || isLow unit then
    asciiUnits ('\\' :: 'u' :: hexQuad unit.toNat)
  else [unit]

def escape : List UInt16 → List UInt16
  | high :: low :: rest =>
    if isHigh high && isLow low then high :: low :: escape rest
    else escapeUnit high ++ escape (low :: rest)
  | [unit] => escapeUnit unit
  | [] => []

def quote (text : Text) : Text :=
  ⟨0x22 :: (escape text.units ++ [0x22])⟩

end AngleSeries.Text
