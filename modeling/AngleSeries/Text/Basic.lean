import AngleSeries.Numeral

/-!
# Texts

A text is a row of UTF-16 code units. A character outside the basic plane takes a pair of
surrogates, and a surrogate without its partner is a unit like any other, which no row of characters
could hold.
Every string is a text by its units. The way back, `chars`, joins the pairs and puts the replacement
character for a surrogate that stands alone, as an encoding into bytes does. No string is changed by
being read back from its units.
Texts are ordered by their code units. A character outside the basic plane begins with a unit from
the surrogate range, so it sorts below the last characters of the basic plane although its code
point is larger.
-/

namespace AngleSeries

/-- A row of code units. -/
structure Text where
  units : List UInt16
  deriving DecidableEq

namespace Text

/-! ### Code units -/

def unitsOf (c : Char) : List UInt16 :=
  let n := c.toNat
  if n < 0x10000 then [UInt16.ofNat n]
  else [UInt16.ofNat (0xD800 + (n - 0x10000) / 0x400), UInt16.ofNat (0xDC00 + n % 0x400)]

def isHigh (unit : UInt16) : Bool :=
  0xD800 ≤ unit && unit ≤ 0xDBFF

def isLow (unit : UInt16) : Bool :=
  0xDC00 ≤ unit && unit ≤ 0xDFFF

def joined (high low : UInt16) : Char :=
  Char.ofNat (0x10000 + (high.toNat - 0xD800) * 0x400 + (low.toNat - 0xDC00))

/-- The character of a single unit; a surrogate has none. -/
def glyph (unit : UInt16) : Char :=
  if isHigh unit || isLow unit then '\uFFFD' else Char.ofNat unit.toNat

/-! ### Characters -/

def ofString (string : String) : Text :=
  ⟨string.toList.flatMap unitsOf⟩

instance : Coe String Text := ⟨ofString⟩

def charsOf : List UInt16 → List Char
  | high :: low :: rest =>
    if isHigh high && isLow low then joined high low :: charsOf rest
    else glyph high :: charsOf (low :: rest)
  | [unit] => [glyph unit]
  | [] => []

def chars (text : Text) : List Char :=
  charsOf text.units

def string (text : Text) : String :=
  String.ofList text.chars

theorem charsOf_unitsOf_append (c : Char) (rest : List UInt16) :
    charsOf (unitsOf c ++ rest) = c :: charsOf rest := by
  have valid : c.toNat < 0xD800 ∨ 0xDFFF < c.toNat ∧ c.toNat < 0x110000 := c.valid
  simp only [unitsOf]
  split
  · have size : (UInt16.ofNat c.toNat).toNat = c.toNat := by
      rw [UInt16.toNat_ofNat']; omega
    have high : isHigh (UInt16.ofNat c.toNat) = false := by
      simp only [isHigh, UInt16.le_iff_toNat_le, size]; simp; omega
    have low : isLow (UInt16.ofNat c.toNat) = false := by
      simp only [isLow, UInt16.le_iff_toNat_le, size]; simp; omega
    have single : glyph (UInt16.ofNat c.toNat) = c := by
      simp [glyph, high, low, size]
    cases rest <;> simp [charsOf, high, single]
  · have sizeHigh : (UInt16.ofNat (0xD800 + (c.toNat - 0x10000) / 0x400)).toNat =
        0xD800 + (c.toNat - 0x10000) / 0x400 := by
      rw [UInt16.toNat_ofNat']; omega
    have sizeLow : (UInt16.ofNat (0xDC00 + c.toNat % 0x400)).toNat = 0xDC00 + c.toNat % 0x400 := by
      rw [UInt16.toNat_ofNat']; omega
    have high : isHigh (UInt16.ofNat (0xD800 + (c.toNat - 0x10000) / 0x400)) = true := by
      simp only [isHigh, UInt16.le_iff_toNat_le, sizeHigh]; simp; omega
    have low : isLow (UInt16.ofNat (0xDC00 + c.toNat % 0x400)) = true := by
      simp only [isLow, UInt16.le_iff_toNat_le, sizeLow]; simp; omega
    have pair : joined (UInt16.ofNat (0xD800 + (c.toNat - 0x10000) / 0x400))
        (UInt16.ofNat (0xDC00 + c.toNat % 0x400)) = c := by
      rw [joined, sizeHigh, sizeLow]
      exact (congrArg Char.ofNat (by omega)).trans (Char.ofNat_toNat c)
    simp only [List.cons_append, List.nil_append, charsOf, high, low, pair, Bool.and_self, if_true]

theorem charsOf_flatMap_unitsOf (chars : List Char) :
    charsOf (chars.flatMap unitsOf) = chars := by
  induction chars with
  | nil => rfl
  | cons c chars ih => rw [List.flatMap_cons, charsOf_unitsOf_append, ih]

theorem string_ofString (string : String) : (ofString string).string = string := by
  simp [Text.string, chars, ofString, charsOf_flatMap_unitsOf]

theorem ofString_inj {a b : String} : ofString a = ofString b ↔ a = b := by
  refine ⟨fun hsame => ?_, congrArg ofString⟩
  rw [← string_ofString a, hsame, string_ofString]

/-! ### Joining -/

/-- The longest text the library writes. -/
def maxLength : Nat := 536870888

instance : Append Text := ⟨fun a b => ⟨a.units ++ b.units⟩⟩

def isEmpty (text : Text) : Bool :=
  text.units.isEmpty

def concat (texts : List Text) : Text :=
  ⟨texts.flatMap units⟩

def join (separator : Text) (texts : List Text) : Text :=
  ⟨separator.units.intercalate (texts.map units)⟩

/-! ### Order -/

def unitsLE : List UInt16 → List UInt16 → Bool
  | [], _ => true
  | _ :: _, [] => false
  | a :: as, b :: bs => if a = b then unitsLE as bs else a < b

def keyLE (a b : Text) : Bool :=
  unitsLE a.units b.units

/-! ### Blanks -/

/-- The characters that count as blank at either end of a numeral: the ASCII blanks, the space
separators, the two line separators and the zero-width no-break space. -/
def isBlank (c : Char) : Bool :=
  let n := c.toNat
  (9 ≤ n && n ≤ 13) || n == 0x20 || n == 0xA0 || n == 0x1680 || (0x2000 ≤ n && n ≤ 0x200A)
    || n == 0x2028 || n == 0x2029 || n == 0x202F || n == 0x205F || n == 0x3000 || n == 0xFEFF

def trim (text : List Char) : List Char :=
  ((text.dropWhile isBlank).reverse.dropWhile isBlank).reverse

end Text

end AngleSeries
