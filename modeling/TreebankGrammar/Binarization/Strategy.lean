/-!
# Binarization strategies

The two ways in which new nonterminals are made when long rules are split.

Main definitions:

- `Strategy`: naive or shared.
-/

namespace TreebankGrammar

/-- How a pair of symbols gets its nonterminal: the naive strategy makes a new one for each fold, the
shared one uses the nonterminal that the same pair got earlier. -/
inductive Strategy where
  | naive
  | shared
deriving DecidableEq

/-- The name of a strategy in notices. -/
def Strategy.name : Strategy → String
  | .naive => "Binarizer"
  | .shared => "SharedBinarizer"

end TreebankGrammar
