/-!
# Floating-point numbers of 64 bits

The numbers that weights are: the finite numbers of the 64-bit binary format, the two
infinities, and the value that is not a number.  A finite number is a sign and a whole
number of units, a unit being `2 ^ (-1074)`, the smallest positive number of the format.

Main definitions:

- `Binary64`: a number of the format, each with exactly one representation.
- `Binary64.ofUnits`: the number nearest to a quotient of units, ties to even.
- `Binary64.add`, `Binary64.sub`, `Binary64.abs`, `Binary64.lt`: arithmetic and order.
- `Binary64.quotient?`: the number nearest to a quotient of two whole numbers.
-/

namespace TreebankGrammar

/-! ## The numbers -/

/-- The one form in which the magnitude `m * 2 ^ k` of units is stored: fewer than 54 bits, an
exponent within range, and a full significand unless the exponent is the least one. -/
def Binary64.Canonical (m k : Nat) : Prop :=
  m < Nat.pow 2 53 ∧ k ≤ 2045 ∧ (k = 0 ∨ Nat.pow 2 52 ≤ m)

instance (m k : Nat) : Decidable (Binary64.Canonical m k) := by
  unfold Binary64.Canonical
  infer_instance

/-- A 64-bit floating-point number.  `finite negative m k` has the magnitude
`m * 2 ^ k` in units of `2 ^ (-1074)`; zero has both signs. -/
inductive Binary64 where
  | finite (negative : Bool) (m k : Nat) (canonical : Binary64.Canonical m k)
  | infinite (negative : Bool)
  | nan
deriving DecidableEq

namespace Binary64

/-- The positive zero. -/
def zero : Binary64 :=
  .finite false 0 0 (by decide)

/-- The number one. -/
def one : Binary64 :=
  .finite false (Nat.pow 2 52) 1022 (by decide)

instance : Inhabited Binary64 :=
  ⟨zero⟩

/-- Whether a number is neither infinite nor the value that is not a number. -/
def isFinite : Binary64 → Bool
  | .finite .. => true
  | _ => false

/-! ## Rounding -/

/-- The whole number nearest to `n / d`; a tie goes to the even one. -/
def roundHalfEven (n d : Nat) : Nat :=
  let q := n / d
  let r := n % d
  if 2 * r < d then q
  else if d < 2 * r then q + 1
  else if q % 2 = 0 then q
  else q + 1

/-- The number of magnitude `m * 2 ^ k` when it is canonical; beyond the range it is infinite. -/
def pack (negative : Bool) (m k : Nat) : Binary64 :=
  if h : Canonical m k then .finite negative m k h else .infinite negative

/-- The exponent of the grid on which the magnitude `num / den` is rounded: 53 bits are kept. -/
def gridExponent (num den : Nat) : Nat :=
  (num / den).log2 - 52

/-- The number nearest to `num / den` units; a tie goes to the even significand, and a
magnitude that rounds beyond the largest finite number is infinite. -/
def ofUnits (negative : Bool) (num den : Nat) : Binary64 :=
  let k := gridExponent num den
  let q := roundHalfEven num (den * Nat.pow 2 k)
  if q = Nat.pow 2 53 then pack negative (Nat.pow 2 52) (k + 1) else pack negative q k

/-- The units in one. -/
def unitsPerOne : Nat :=
  Nat.pow 2 1074

/-- The number nearest to the quotient of two whole numbers, the second one positive;
none when it is too large to be finite. -/
def quotient? (a b : Int) : Option Binary64 :=
  let q := ofUnits (decide (a < 0)) (a.natAbs * unitsPerOne) b.natAbs
  if q.isFinite then some q else none

/-! ## Arithmetic -/

/-- The signed number of units of a magnitude. -/
def signedUnits (negative : Bool) (m k : Nat) : Int :=
  if negative then -((m * Nat.pow 2 k : Nat) : Int) else (m * Nat.pow 2 k : Nat)

/-- The opposite number. -/
def neg : Binary64 → Binary64
  | .finite s m k h => .finite (!s) m k h
  | .infinite s => .infinite (!s)
  | .nan => .nan

/-- The number without its sign. -/
def abs : Binary64 → Binary64
  | .finite _ m k h => .finite false m k h
  | .infinite _ => .infinite false
  | .nan => .nan

/-- The number nearest to the exact sum.  A sum of zero is negative only when both summands are,
and opposite infinities have no sum. -/
def add : Binary64 → Binary64 → Binary64
  | .finite s m k _, .finite t n l _ =>
    let sum := signedUnits s m k + signedUnits t n l
    if sum = 0 then .finite (s && t) 0 0 (by decide)
    else ofUnits (decide (sum < 0)) sum.natAbs 1
  | .nan, _ => .nan
  | _, .nan => .nan
  | .infinite s, .infinite t => if s = t then .infinite s else .nan
  | .infinite s, .finite .. => .infinite s
  | .finite .., .infinite t => .infinite t

/-- The number nearest to the exact difference. -/
def sub (x y : Binary64) : Binary64 :=
  x.add y.neg

/-- Whether the first number is less than the second; false when one of them is not a number. -/
def lt : Binary64 → Binary64 → Bool
  | .finite s m k _, .finite t n l _ => decide (signedUnits s m k < signedUnits t n l)
  | .nan, _ => false
  | _, .nan => false
  | .infinite s, .infinite t => s && !t
  | .infinite s, .finite .. => s
  | .finite .., .infinite t => !t

/-- No number is less than the value that is not a number, nor the other way round. -/
@[simp]
theorem lt_nan (x : Binary64) : x.lt .nan = false := by
  cases x <;> rfl

@[simp]
theorem nan_lt (x : Binary64) : Binary64.nan.lt x = false := by
  cases x <;> rfl

/-- A canonical magnitude is stored as it is. -/
@[simp]
theorem pack_of_canonical (negative : Bool) {m k : Nat} (h : Canonical m k) :
    pack negative m k = .finite negative m k h := by
  simp [pack, h]

end Binary64
end TreebankGrammar
