import TreebankGrammar.Grammar.Basic
import TreebankGrammar.Number.Decimal
import TreebankGrammar.Number.Summation

/-!
# Queries

What can be asked of a grammar.

Main definitions:

- `Grammar.weight`: the weight of a rule.
- `Grammar.nonterminals`, `Grammar.terminals` and `Grammar.symbols`: sorted lists of symbols.
- `Grammar.isNormalised`: whether the weights of each nonterminal add up to one.
-/

namespace TreebankGrammar

/-- The distinct symbols of a list, sorted by code point. -/
def sortedDistinct (symbols : List String) : List String :=
  (symbols.mergeSort fun a b => decide (a ≤ b)).foldr
    (fun s rest => if rest.head? = some s then rest else s :: rest) []

namespace Grammar

/-! ## Weights -/

/-- Whether a body is the one asked for; without a flag, lexical and other bodies match. -/
def matchesBody (rhs : List String) (lexical : Option Bool) (body : Body) : Bool :=
  decide (body.rhs = rhs) && (lexical.isNone || lexical == some body.lexical)

/-- The weight of the first rule that matches, zero if none does. -/
def weight (g : Grammar) (lhs : String) (rhs : List String) (lexical : Option Bool) : Weight :=
  match (g.row lhs).entries.find? fun (body, _) => matchesBody rhs lexical body with
  | some (_, tally) => tally.weight
  | none => .zero

/-- How far the weights of a nonterminal may add up to something else than one by default. -/
def defaultEpsilon : Weight :=
  (⟨1, -9⟩ : Decimal).nearest false

/-- Whether the weights of a row add up to one, as far as the sum can be compared. -/
def isNormalisedRow (epsilon : Weight) (row : Row) : Bool :=
  let total := Binary64.sum (row.values.map Tally.weight)
  !epsilon.lt (total.sub .one).abs

/-- Whether the weights of each nonterminal add up to one. -/
def isNormalised (g : Grammar) (epsilon : Weight) : Bool :=
  g.rows.values.all (isNormalisedRow epsilon)

/-! ## Symbols -/

/-- The symbols on the right-hand sides, rule by rule. -/
def rhsSymbols (g : Grammar) : List String :=
  g.tallies.flatMap fun (p, _) => p.rhs

/-- The nonterminals, sorted. -/
def nonterminals (g : Grammar) : List String :=
  sortedDistinct g.rows.keys

/-- The symbols on right-hand sides that are no nonterminals, sorted. -/
def terminals (g : Grammar) : List String :=
  (sortedDistinct g.rhsSymbols).filter fun symbol => !g.rows.contains symbol

/-- All symbols, sorted. -/
def symbols (g : Grammar) : List String :=
  sortedDistinct (g.rows.keys ++ g.rhsSymbols)

end Grammar
end TreebankGrammar
