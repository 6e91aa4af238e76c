import TreebankGrammar.Rule.Basic
import TreebankGrammar.Table

/-!
# Grammars

A grammar counts how often each nonterminal and each production was seen, and keeps the
weights that are estimated from the counts.

Main definitions:

- `Grammar`: the counts, the weights and whether the weights have been estimated.
- `Grammar.add`: counts a production.
- `Grammar.rules`: the rules with their weights, in order.
-/

namespace TreebankGrammar

/-- How often a production was seen, and its weight. -/
structure Tally where
  count : Int
  weight : Weight
deriving DecidableEq

/-- The productions of one nonterminal. -/
abbrev Row :=
  Table Body Tally

/-- Counts of nonterminals and of their productions, in the order in which they were first seen.
A normalised grammar has had its weights estimated and takes no more counts. -/
structure Grammar where
  symbolCounts : Table String Int := .empty
  rows : Table String Row := .empty
  normalised : Bool := false
deriving DecidableEq

/-- The tally of a production that is seen more often, or for the first time. -/
def Tally.add (count : Int) : Option Tally → Tally
  | some tally => { tally with count := tally.count + count }
  | none => ⟨count, .zero⟩

/-- The row in which one body is seen more often. -/
def Row.add (body : Body) (count : Int) (row : Option Row) : Row :=
  (row.getD .empty).upsert body (Tally.add count)

/-- The sum of the counts of a row. -/
def Row.total (row : Row) : Int :=
  (row.values.map Tally.count).foldr (· + ·) 0

namespace Grammar

/-- The grammar without counts. -/
def empty : Grammar :=
  {}

instance : Inhabited Grammar :=
  ⟨empty⟩

/-- Counts a production the given number of times: first its left-hand side, then the
production itself. -/
def add (g : Grammar) (p : Production) (count : Int) : Grammar :=
  { g with
    symbolCounts := g.symbolCounts.upsert p.lhs fun old => old.getD 0 + count
    rows := g.rows.upsert p.lhs (Row.add p.toBody count) }

/-- All productions with their tallies, row by row. -/
def tallies (g : Grammar) : List (Production × Tally) :=
  g.rows.entries.flatMap fun (lhs, row) =>
    row.entries.map fun (body, tally) => (.ofBody lhs body, tally)

/-- The rules with their weights, row by row. -/
def rules (g : Grammar) : List Rule :=
  g.tallies.map fun (p, tally) => .ofProduction p tally.weight

/-- The number of rules. -/
def size (g : Grammar) : Nat :=
  (g.rows.values.map Table.size).foldr (· + ·) 0

/-- The count of a nonterminal, zero if it was never seen. -/
def symbolCount (g : Grammar) (symbol : String) : Int :=
  g.symbolCounts.getD symbol 0

/-- The sum of the counts of a nonterminal's rules, zero if it has none. -/
def rowTotal (g : Grammar) (symbol : String) : Int :=
  (g.rows.getD symbol .empty).total

/-- The productions of a nonterminal with their tallies. -/
def row (g : Grammar) (symbol : String) : Row :=
  g.rows.getD symbol .empty

/-- The tally of a production, if it was seen. -/
def tally? (g : Grammar) (p : Production) : Option Tally :=
  (g.row p.lhs).get? p.toBody

@[simp]
theorem normalised_add (g : Grammar) (p : Production) (count : Int) :
    (g.add p count).normalised = g.normalised :=
  rfl

end Grammar
end TreebankGrammar
