import TreebankGrammar.Error
import TreebankGrammar.Grammar.Estimation
import TreebankGrammar.Rule.Spec

/-!
# Commands

What can be asked of a workspace, and what it answers.

Main definitions:

- `Command`: a request.
- `Answer`: the value that a request gives.
-/

namespace TreebankGrammar

/-- A request to a workspace.  Grammars, binarizers and rule lists are given by name. -/
inductive Command where
  | newGrammar (g : String)
  | countTree (g : String) (tree : TreeSource)
  | countTrees (g : String) (trees : List TreeSource)
  | countTreebank (g file : String) (limits : Treebank.Limits)
  | loadTreebank (g file : String) (limits : Treebank.Limits) (normalise : Bool)
  | merge (g other : String)
  | estimate (g : String)
  | checkCounts (g : String)
  | setSymbolCount (g symbol : String) (count : Int)
  | setRuleCount (g : String) (rule : RuleSpec) (count : Int)
  | setWeight (g : String) (rule : RuleSpec)
  | showGrammar (g : String)
  | isNormalised (g : String) (epsilon : Weight)
  | weight (g lhs : String) (rhs : List String) (lexical : Option Bool)
  | symbols (g : String)
  | rules (g : String)
  | binarize (g : String) (strategy : Strategy) (stem : String) (into : Option String)
  | storeGrammar (g file : String) (header : List String)
  | storeRules (rules file : String) (header : List String)
  | loadRules (file : String) (into : Option String)
  | newBinarizer (b g : String) (strategy : Strategy) (stem : String)
  | runBinarizer (b : String)
  | startPass (b : String)
  | stick (b symbol : String)
  | mint (b : String)
  | fold (b left right : String)
  | binarizeRule (b : String) (rule : RuleSpec)

/-- The value that a request gives. -/
inductive Answer where
  | done
  | number (n : Nat)
  | truth (b : Bool)
  | weight (w : Weight)
  | grammar (g : Grammar)
  /-- Nonterminals, terminals and all symbols of a grammar, and its number of rules. -/
  | symbols (nonterminals terminals all : List String) (size : Nat)
  | rules (rules : List Rule)
  | text (s : String)
  | symbol (s : String)
  /-- Binarized rules, and the nonterminals that the pass has made so far. -/
  | binarized (rules : List Rule) (synthetic : List String)
  /-- The nonterminal for a pair of symbols, and the rules that define it. -/
  | folded (symbol : String) (rules : List Rule)

end TreebankGrammar
