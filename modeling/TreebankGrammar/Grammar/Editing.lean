import TreebankGrammar.Grammar.Basic

/-!
# Direct writes

Writes to the tables of a grammar that bypass counting and may leave its counts inconsistent.

Main definitions:

- `Grammar.setSymbolCount`, `Grammar.setRuleCount` and `Grammar.setWeight`: one value each.
-/

namespace TreebankGrammar
namespace Grammar

/-- Writes the count of a nonterminal. -/
def setSymbolCount (g : Grammar) (symbol : String) (count : Int) : Grammar :=
  { g with symbolCounts := g.symbolCounts.insert symbol count }

/-- The tally with a count written to it: a rule that is there keeps its weight. -/
def writeCount (weight : Weight) (count : Int) : Option Tally → Tally
  | some tally => { tally with count }
  | none => ⟨count, weight⟩

/-- Writes the count of a rule, whose weight is used only if the rule is new. -/
def setRuleCount (g : Grammar) (r : Rule) (count : Int) : Grammar :=
  { g with
    rows := g.rows.upsert r.lhs fun row =>
      (row.getD .empty).upsert r.toBody (writeCount r.weight count) }

/-- Writes the weight of a rule, if the rule is there. -/
def setWeight (g : Grammar) (r : Rule) : Grammar :=
  { g with
    rows := g.rows.map fun lhs row =>
      if lhs = r.lhs then
        row.map fun body tally => if body = r.toBody then { tally with weight := r.weight } else tally
      else row }

end Grammar
end TreebankGrammar
