import TreebankGrammar.Binarization.Strategy
import TreebankGrammar.Binarization.Supply
import TreebankGrammar.Rule.Basic
import TreebankGrammar.Table

/-!
# Binarization passes

A rule with more than two symbols on the right is split from the left: the first two symbols
are folded into a new nonterminal, this one and the next symbol into another, and so on, until two
symbols are left.  The new nonterminals have one rule each, of weight one, and the weight of the split
rule stays on the rule for its own left-hand side.  A pass keeps the names made so far.

Main definitions:

- `Pass`: the state of a pass.
- `Pass.mint`: makes a new nonterminal.
- `Pass.fold`: the nonterminal for a pair of symbols, and the rule that defines it.
- `Pass.binarizeRule` and `Pass.binarizeRules`: the rules that stand for one rule and for many.
-/

namespace TreebankGrammar

/-- Where the names of new nonterminals come from: a supply, or one fixed symbol. -/
inductive Naming where
  | fresh (supply : Supply)
  | constant (symbol : String)

/-- The next name. -/
def Naming.next : Naming → String × Naming
  | .fresh supply => (supply.next.1, .fresh supply.next.2)
  | .constant symbol => (symbol, .constant symbol)

/-- The name for a new nonterminal is a symbol of the grammar, or has been given away before. -/
structure SymbolInUse where
  symbol : String
deriving DecidableEq

/-- The wording of the error. -/
def SymbolInUse.message (e : SymbolInUse) : String :=
  "New nonterminal " ++ e.symbol ++ " is already in use"

/-- The state of a pass: the symbols of the grammar, the source of names, the new nonterminals in the
order in which they were made, the same as a set, and the nonterminal of each
pair that was folded under the shared strategy. -/
structure Pass where
  strategy : Strategy
  reserved : List String
  naming : Naming
  synthetic : List String := []
  minted : List String := []
  memo : Table (String × String) String := .empty

namespace Pass

/-- A pass that has made no nonterminal yet, over a grammar with the given symbols. -/
def start (strategy : Strategy) (stem : String) (symbols : List String) : Pass where
  strategy := strategy
  reserved := symbols
  naming := .fresh { stem, reserved := symbols }

/-- The pass whose names are all the same symbol from now on. -/
def stick (p : Pass) (symbol : String) : Pass :=
  { p with naming := .constant symbol }

/-! ## New nonterminals -/

/-- Makes a new nonterminal, unless its name is in use. -/
def mint (p : Pass) : Pass × Except SymbolInUse String :=
  let (symbol, naming) := p.naming.next
  if symbol ∈ p.reserved ∨ symbol ∈ p.minted then ({ p with naming }, .error ⟨symbol⟩)
  else
    ({ p with naming, synthetic := p.synthetic ++ [symbol], minted := p.minted.insert symbol },
      .ok symbol)

/-- The rule that defines a new nonterminal as a pair of symbols. -/
def defining (symbol left right : String) : Rule :=
  .ofProduction (.phrasal symbol [left, right]) .one

/-- A new nonterminal for a pair of symbols, and its rule. -/
def foldNew (p : Pass) (left right : String) : Pass × Except SymbolInUse (String × List Rule) :=
  match p.mint with
  | (p, .error e) => (p, .error e)
  | (p, .ok symbol) => (p, .ok (symbol, [defining symbol left right]))

/-- Remembers the nonterminal of a pair of symbols. -/
def remember (p : Pass) (left right symbol : String) : Pass :=
  { p with memo := p.memo.insert (left, right) symbol }

/-- The nonterminal for a pair of symbols, and its rule if it is new.  Under the shared
strategy a pair that was folded before has its nonterminal already. -/
def fold (p : Pass) (left right : String) : Pass × Except SymbolInUse (String × List Rule) :=
  match p.strategy with
  | .naive => p.foldNew left right
  | .shared =>
    match p.memo.get? (left, right) with
    | some symbol => (p, .ok (symbol, []))
    | none =>
      match p.foldNew left right with
      | (p, .error e) => (p, .error e)
      | (p, .ok (symbol, rules)) => (p.remember left right symbol, .ok (symbol, rules))

/-! ## Rules -/

/-- Folds symbols into the one before them, from the left, and returns the last
nonterminal with the rules of the new ones. -/
def foldAll (p : Pass) (left : String) :
    List String → Pass × Except SymbolInUse (String × List Rule)
  | [] => (p, .ok (left, []))
  | right :: rest =>
    match p.fold left right with
    | (p, .error e) => (p, .error e)
    | (p, .ok (symbol, rules)) =>
      match p.foldAll symbol rest with
      | (p, .error e) => (p, .error e)
      | (p, .ok (last, later)) => (p, .ok (last, rules ++ later))

/-- The rule with the left-hand side and the weight of another one, and two symbols on the right. -/
def closing (r : Rule) (left last : String) : Rule :=
  .ofProduction (.phrasal r.lhs [left, last]) r.weight

/-- The rules that stand for one rule: those of the new nonterminals, then the one that keeps
left-hand side and weight.  All symbols but the last are folded, and the last stands beside what they
are folded into; a single symbol is first and last at once.  A rule without symbols stands for
itself. -/
def binarizeRule (p : Pass) (r : Rule) : Pass × Except SymbolInUse (List Rule) :=
  match r.rhs with
  | first :: rest =>
    match p.foldAll first rest.dropLast with
    | (p, .error e) => (p, .error e)
    | (p, .ok (left, rules)) => (p, .ok (rules ++ [closing r left (rest.getLastD first)]))
  | [] => (p, .ok [r])

/-- The longest right-hand side that is not split. -/
def maxRhs : Nat :=
  2

/-- The rules that stand for a list of rules, in the order of the list. -/
def binarizeRules (p : Pass) : List Rule → Pass × Except SymbolInUse (List Rule)
  | [] => (p, .ok [])
  | r :: rest =>
    match if r.rhs.length ≤ maxRhs then (p, .ok [r]) else p.binarizeRule r with
    | (p, .error e) => (p, .error e)
    | (p, .ok rules) =>
      match p.binarizeRules rest with
      | (p, .error e) => (p, .error e)
      | (p, .ok later) => (p, .ok (rules ++ later))

end Pass
end TreebankGrammar
