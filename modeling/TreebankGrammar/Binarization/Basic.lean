import TreebankGrammar.Binarization.Pass
import TreebankGrammar.Grammar.Queries
import TreebankGrammar.Notice

/-!
# Binarization

The rules of a grammar in a form with at most two symbols on the right of each.

Main definitions:

- `Grammar.startPass`: a pass over a grammar that has made no nonterminal yet.
- `Grammar.binarize`: the binarized rules of a grammar, and the pass that made them.
-/

namespace TreebankGrammar

/-- What binarizing a grammar gives: the pass at its end, what was reported, and the rules. -/
structure BinarizationOutcome where
  pass : Pass
  notices : List Notice
  result : Except SymbolInUse (List Rule)

namespace Grammar

/-- The stem of new nonterminals unless another one is given. -/
def defaultStem : String :=
  "X"

/-- A pass over the grammar that has made no nonterminal yet. -/
def startPass (g : Grammar) (strategy : Strategy) (stem : String) : Pass :=
  .start strategy stem g.symbols

/-- The binarized rules of the grammar, in the order of its rules. -/
def binarize (g : Grammar) (strategy : Strategy) (stem : String) : BinarizationOutcome :=
  let warnings := if g.normalised then [] else [.notEstimated]
  let (pass, result) := (g.startPass strategy stem).binarizeRules g.rules
  let summary :=
    match result with
    | .error _ => []
    | .ok rules => [.binarized strategy g.size rules.length pass.synthetic.length]
  { pass, notices := warnings ++ summary, result }

end Grammar
end TreebankGrammar
