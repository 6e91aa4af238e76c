import TreebankGrammar.Number.Binary64

/-!
# Decimals

Whole multiples of a power of ten, how the nearest floating-point number of a decimal is
found, and the shortest decimal that determines a floating-point number.

Main definitions:

- `Decimal.nearest`: the floating-point number nearest to a decimal.
- `Decimal.exact`: the decimal equal to a magnitude.
- `Decimal.shortest`: among the decimals with the fewest digits whose nearest number is
  the given magnitude, the one closest to it.
-/

namespace TreebankGrammar

/-- The number `coefficient * 10 ^ exponent`. -/
structure Decimal where
  coefficient : Nat
  exponent : Int
deriving DecidableEq

namespace Decimal

/-- How many decimal digits a number is written with. -/
def digitCount (n : Nat) : Nat :=
  (Nat.toDigits 10 n).length

/-! ## The nearest number -/

/-- A decimal that is not zero and whose first digit stands this far before the point is beyond all
finite numbers. -/
def overflowPoint : Int :=
  310

/-- A decimal whose first digit stands before this place after the point can be told from zero. -/
def underflowPoint : Int :=
  -330

/-- The floating-point number nearest to a decimal with a sign.  The two bounds on the place of the
first digit only keep the powers of ten small. -/
def nearest (negative : Bool) (d : Decimal) : Binary64 :=
  let point := (digitCount d.coefficient : Int) + d.exponent
  if d.coefficient = 0 || point < underflowPoint then Binary64.pack negative 0 0
  else if overflowPoint < point then .infinite negative
  else if 0 ≤ d.exponent then
    Binary64.ofUnits negative (d.coefficient * Nat.pow 10 d.exponent.toNat * Binary64.unitsPerOne) 1
  else
    Binary64.ofUnits negative (d.coefficient * Binary64.unitsPerOne) (Nat.pow 10 (-d.exponent).toNat)

/-! ## The shortest decimal -/

/-- The decimal equal to `m * 2 ^ k` units. -/
def exact (m k : Nat) : Decimal :=
  if 1074 ≤ k then ⟨m * Nat.pow 2 (k - 1074), 0⟩
  else ⟨m * Nat.pow 5 (1074 - k), -((1074 - k : Nat) : Int)⟩

/-- Whether the magnitude `m * 2 ^ k` is the number nearest to a decimal. -/
def determines (m k : Nat) (d : Decimal) : Bool :=
  decide (d.nearest false = Binary64.pack false m k)

/-- The decimal closest to `d` among its two neighbours without the last `cut` digits that
determine the magnitude; a tie goes to the even coefficient. -/
def shortened? (m k : Nat) (d : Decimal) (cut : Nat) : Option Decimal :=
  let scale := Nat.pow 10 cut
  let low := d.coefficient / scale
  let rest := d.coefficient % scale
  let below : Decimal := ⟨low, d.exponent + cut⟩
  let above : Decimal := ⟨low + 1, d.exponent + cut⟩
  let takesBelow := decide (2 * rest < scale) || (2 * rest == scale && low % 2 == 0)
  match determines m k below, determines m k above with
  | true, true => some (if takesBelow then below else above)
  | true, false => some below
  | false, true => some above
  | false, false => none

/-- Seventeen digits determine every number of the format. -/
def maxDigits : Nat :=
  17

/-- The shortest decimal that determines `m * 2 ^ k` units, and of several the closest one. -/
def shortest (m k : Nat) : Decimal :=
  let d := exact m k
  let count := digitCount d.coefficient
  let attempt (i : Nat) : Option Decimal :=
    if count < i + 1 then none else shortened? m k d (count - (i + 1))
  ((List.range maxDigits).findSome? attempt).getD d

end Decimal
end TreebankGrammar
