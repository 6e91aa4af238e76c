import TreebankGrammar.Number.Binary64

/-!
# Summation

The sum of a list of floating-point numbers.  Rounding makes the sum depend on the order of the
additions, which is fixed: short lists go from left to right, longer ones through
eight running sums, and lists of more than 128 numbers are halved first.

Main definitions:

- `Binary64.pairwiseSum`: the sum in the fixed order.
- `Binary64.sum`: the sum as it is reported, never a negative zero.
-/

namespace TreebankGrammar
namespace Binary64

/-- The number of running sums. -/
def lanes : Nat :=
  8

/-- The longest list that is summed without halving. -/
def blockLength : Nat :=
  128

/-- Adds to the running sums all full blocks of a list, and returns them with what is left. -/
def addBlocks (sums : List Binary64) (xs : List Binary64) : List Binary64 × List Binary64 :=
  if xs.length < lanes then (sums, xs)
  else addBlocks (List.zipWith add sums (xs.take lanes)) (xs.drop lanes)
termination_by xs.length
decreasing_by
  simp only [List.length_drop, lanes] at *
  omega

/-- Adds neighbours: each pair gives one number. -/
def addNeighbours : List Binary64 → List Binary64
  | x :: y :: rest => x.add y :: addNeighbours rest
  | xs => xs

/-- The running sums combined as a balanced tree. -/
def combine (sums : List Binary64) : Binary64 :=
  (addNeighbours (addNeighbours (addNeighbours sums))).headD zero

/-- The sum of a list that is not halved. -/
def blockSum (xs : List Binary64) : Binary64 :=
  if xs.length < lanes then xs.foldl add zero
  else
    let (sums, rest) := addBlocks (xs.take lanes) (xs.drop lanes)
    rest.foldl add (combine sums)

/-- Where a long list is halved: at a multiple of the number of running sums. -/
def halfway (n : Nat) : Nat :=
  n / 2 - n / 2 % lanes

/-- The sum of a list in the fixed order of additions. -/
def pairwiseSum (xs : List Binary64) : Binary64 :=
  if xs.length ≤ blockLength then blockSum xs
  else
    (pairwiseSum (xs.take (halfway xs.length))).add (pairwiseSum (xs.drop (halfway xs.length)))
termination_by xs.length
decreasing_by
  · simp only [List.length_take, halfway, lanes, blockLength] at *
    omega
  · simp only [List.length_drop, halfway, lanes, blockLength] at *
    omega

/-- The sum of a list, starting from the positive zero. -/
def sum (xs : List Binary64) : Binary64 :=
  zero.add (pairwiseSum xs)

end Binary64
end TreebankGrammar
