import TreebankGrammar.Number.Decimal

/-!
# Written numbers

The text of a floating-point number: the digits of its shortest decimal, positional when the
number is neither very small nor very large, and otherwise with an exponent.

Main definitions:

- `Number.layout`: digits and the place of the point as text.
- `Binary64.text`: the text of a number.
-/

namespace TreebankGrammar
namespace Number

/-- A number whose first digit stands for at least this power of ten is written positionally. -/
def leastPositional : Int :=
  -4

/-- A number whose first digit stands for at least this power of ten is written with an exponent. -/
def leastExponential : Int :=
  16

/-- The text of an exponent: a sign and at least two digits. -/
def exponentText (e : Int) : List Char :=
  let digits := Nat.toDigits 10 e.natAbs
  (if e < 0 then '-' else '+') :: (if digits.length < 2 then '0' :: digits else digits)

/-- The text of `0.digits * 10 ^ point`.  A positional text has a point and a digit on both
sides of it; a text with an exponent has one digit before the point, and no
point when no digit follows. -/
def layout (digits : List Char) (point : Int) : List Char :=
  if leastPositional ≤ point - 1 ∧ point - 1 < leastExponential then
    if point ≤ 0 then '0' :: '.' :: (List.replicate (-point).toNat '0' ++ digits)
    else if point.toNat < digits.length then
      digits.take point.toNat ++ '.' :: digits.drop point.toNat
    else digits ++ List.replicate (point.toNat - digits.length) '0' ++ ['.', '0']
  else
    let fraction := digits.drop 1
    digits.take 1 ++ (if fraction.isEmpty then [] else '.' :: fraction) ++
      'e' :: exponentText (point - 1)

/-- Digits without the zeros at their end. -/
def dropTrailingZeros (digits : List Char) : List Char :=
  (digits.reverse.dropWhile (· == '0')).reverse

/-- The text of a magnitude that is not zero. -/
def decimalText (d : Decimal) : List Char :=
  let digits := Nat.toDigits 10 d.coefficient
  layout (dropTrailingZeros digits) (digits.length + d.exponent)

end Number

namespace Binary64

/-- The characters of a number's text. -/
def textChars : Binary64 → List Char
  | .finite negative m k _ =>
    let magnitude := if m = 0 then ['0', '.', '0'] else Number.decimalText (Decimal.shortest m k)
    if negative then '-' :: magnitude else magnitude
  | .infinite negative => if negative then ['-', 'i', 'n', 'f'] else ['i', 'n', 'f']
  | .nan => ['n', 'a', 'n']

/-- The text of a number: the fewest digits that determine it. -/
def text (x : Binary64) : String :=
  String.ofList x.textChars

end Binary64
end TreebankGrammar
