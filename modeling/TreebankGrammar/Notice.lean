import TreebankGrammar.Binarization.Strategy
import TreebankGrammar.Grammar.Error

/-!
# Notices

What operations report besides their results.

Main definitions:

- `Notice`: an event worth reporting.
- `Notice.level` and `Notice.text`: how important it is, and its wording.
-/

namespace TreebankGrammar

/-- How important a notice is. -/
inductive Level where
  | debug
  | info
  | warning
deriving DecidableEq

/-- The name of a level. -/
def Level.name : Level → String
  | .debug => "DEBUG"
  | .info => "INFO"
  | .warning => "WARNING"

/-- An event worth reporting. -/
inductive Notice where
  /-- A tree of a treebank was left out because of its length. -/
  | discarded (discard : Treebank.Discard)
  /-- A treebank was counted into a grammar that now has so many nonterminals and rules. -/
  | counted (trees : Nat) (file : String) (nonterminals rules : Nat)
  /-- The weights of a grammar were estimated. -/
  | estimated (rules nonterminals : Nat)
  /-- A grammar is binarized before its weights are estimated. -/
  | notEstimated
  /-- The rules of a grammar were binarized. -/
  | binarized (strategy : Strategy) (rules result symbols : Nat)
  /-- A missing or unreadable treebank counts as an empty one. -/
  | emptyGrammar (cause : CorpusError)
deriving DecidableEq

namespace Notice

/-- How important a notice is. -/
def level : Notice → Level
  | .discarded _ | .estimated .. => .debug
  | .counted .. | .binarized .. => .info
  | .notEstimated | .emptyGrammar _ => .warning

/-- The wording of a notice. -/
def text : Notice → String
  | .discarded d =>
    "Discarding tree of length " ++ toString d.words ++ " on line " ++ toString d.line
  | .counted trees file nonterminals rules =>
    "Read " ++ toString trees ++ " trees from " ++ file ++ ": " ++ toString nonterminals ++
      " nonterminals, " ++ toString rules ++ " rules"
  | .estimated rules nonterminals =>
    "Estimated weights of " ++ toString rules ++ " rules for " ++ toString nonterminals ++
      " nonterminals"
  | .notEstimated => "Binarizing a grammar whose weights have not been estimated"
  | .binarized strategy rules result symbols =>
    strategy.name ++ ": " ++ toString rules ++ " rules became " ++ toString result ++ ", with " ++
      toString symbols ++ " new nonterminals"
  | .emptyGrammar cause => cause.message ++ "; writing an empty grammar"

end Notice
end TreebankGrammar
