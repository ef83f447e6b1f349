import AngleSeries.Decimal.Basic
import AngleSeries.Double.Reading
import AngleSeries.Double.Shortest

/-!
# Writing decimals

`text` writes plain digits as long as the leading digit stands below `10 ^ 1024`; `exponential`
always writes an exponent; `signedText` differs from `text` only at negative zero. The nearest
binary64 number of a decimal is reached in one rounding, and a binary64 number becomes a decimal
through its shortest digits.
-/

namespace AngleSeries.Decimal

/-- Plain notation for leading digits down to the sixth decimal place and below `10 ^ 1024`. -/
def textLayout : Layout := ⟨-6, 1023, true⟩

def exponentialLayout : Layout := ⟨0, -1, true⟩

def magnitudeText (layout : Layout) (coefficient : Nat) (exponent : Int) : String :=
  String.ofList (layout.writeScaled coefficient exponent)

/-- The decimal in the given layout, with or without the sign of a zero. -/
def textWith (layout : Layout) (signsZero : Bool) : Decimal → String
  | .nan => "NaN"
  | .infinite negative => if negative then "-Infinity" else "Infinity"
  | .finite negative coefficient exponent _ =>
    let body := magnitudeText layout coefficient exponent
    if negative && (signsZero || coefficient != 0) then "-" ++ body else body

/-- The text of a decimal; zero has no sign. -/
def text (x : Decimal) : String :=
  x.textWith textLayout false

/-- The text of a decimal; negative zero keeps its sign. -/
def signedText (x : Decimal) : String :=
  x.textWith textLayout true

def exponential (x : Decimal) : String :=
  x.textWith exponentialLayout false

def toDouble : Decimal → Double
  | .nan => .nan
  | .infinite negative => .infinite negative
  | .finite negative coefficient exponent _ => Double.ofDecimal negative coefficient exponent

def ofDouble : Double → Decimal
  | .nan => .nan
  | .infinite negative => .infinite negative
  | .finite negative units _ =>
    if units = 0 then signedZero negative
    else
      let (coefficient, exponent) := Double.shortest units
      ofScaled negative coefficient exponent

end AngleSeries.Decimal
