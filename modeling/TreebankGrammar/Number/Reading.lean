import TreebankGrammar.Number.Decimal
import TreebankGrammar.Number.Digit
import TreebankGrammar.Text.Blank

/-!
# Reading numbers

The texts that stand for a floating-point number or for a whole number.  Digits of every
script are accepted, and a single underscore may stand between two digits.

Main definitions:

- `Number.joinDigitGroups`: a text without its underscores, if each stands between digits.
- `Binary64.read?`: the number nearest to what a text denotes.
- `Number.readInt?`: the whole number that a text denotes.
-/

namespace TreebankGrammar
namespace Number

/-! ## Digit groups -/

/-- Whether a text begins with a digit. -/
def startsWithDigit : List Char → Bool
  | [] => false
  | c :: _ => isDecimalDigit c

/-- The text without its underscores; none when an underscore does not stand between two digits.
The flag tells whether a digit stands directly before the text. -/
def joinDigitGroups (afterDigit : Bool) : List Char → Option (List Char)
  | [] => some []
  | c :: cs =>
    if c = '_' then
      if afterDigit && startsWithDigit cs then joinDigitGroups false cs else none
    else (joinDigitGroups (isDecimalDigit c) cs).map (c :: ·)

/-- A sign at the front, `true` for minus, and the text after it. -/
def splitSign : List Char → Bool × List Char
  | '-' :: cs => (true, cs)
  | '+' :: cs => (false, cs)
  | cs => (false, cs)

/-- The number written by a text that holds digits only, at least one. -/
def readNat? (cs : List Char) : Option Nat :=
  if cs.isEmpty then none else (cs.mapM digitValue?).map ofDigitValues

/-! ## Decimals -/

/-- The exponent that follows the digits of a decimal: nothing, or a mark, a sign and digits. -/
def readExponent? : List Char → Option Int
  | [] => some 0
  | c :: cs =>
    if c = 'e' ∨ c = 'E' then
      let (negative, digits) := splitSign cs
      (readNat? digits).map fun n => if negative then -(n : Int) else n
    else none

/-- The digits after the point, if there is a point, and the text after them. -/
def splitFraction : List Char → List Char × List Char
  | '.' :: cs => cs.span isDecimalDigit
  | cs => ([], cs)

/-- The decimal that a text without sign and underscores denotes. -/
def readDecimal? (cs : List Char) : Option Decimal := do
  let (whole, afterWhole) := cs.span isDecimalDigit
  let (fraction, afterFraction) := splitFraction afterWhole
  let coefficient ← readNat? (whole ++ fraction)
  let exponent ← readExponent? afterFraction
  return ⟨coefficient, exponent - fraction.length⟩

/-- Blanks that may stand around a number; the four separators of the ASCII range may not. -/
def isNumberBlank (c : Char) : Bool :=
  Text.isBlank c && !(0x1C ≤ c.toNat && c.toNat ≤ 0x1F)

/-- A text without the blanks that may stand around a number. -/
def trimNumber (cs : List Char) : List Char :=
  ((cs.dropWhile isNumberBlank).reverse.dropWhile isNumberBlank).reverse

/-! ## Whole numbers -/

/-- The most digits that a whole number may be written with. -/
def maxIntDigits : Nat :=
  4300

/-- The whole number that a text denotes: a sign and digits. -/
def readInt? (s : String) : Option Int := do
  let (negative, digits) := splitSign (trimNumber s.toList)
  let digits ← joinDigitGroups false digits
  if maxIntDigits < digits.length then none
  else
    let n ← readNat? digits
    return if negative then -(n : Int) else n

end Number

namespace Binary64

/-- The names of infinity. -/
def infinityNames : List (List Char) :=
  ["inf".toList, "infinity".toList]

/-- The name of the value that is not a number. -/
def nanName : List Char :=
  "nan".toList

/-- The number that a list of characters denotes. -/
def readChars? (cs : List Char) : Option Binary64 := do
  let cs ← Number.joinDigitGroups false (Number.trimNumber cs)
  let (negative, magnitude) := Number.splitSign cs
  let name := magnitude.map Char.toLower
  if name ∈ infinityNames then some (.infinite negative)
  else if name = nanName then some .nan
  else (Number.readDecimal? magnitude).map (Decimal.nearest negative)

/-- The number that a text denotes: a sign, then the name of a number that is not finite,
or digits with an optional point and an optional exponent. -/
def read? (s : String) : Option Binary64 :=
  readChars? s.toList

end Binary64
end TreebankGrammar
