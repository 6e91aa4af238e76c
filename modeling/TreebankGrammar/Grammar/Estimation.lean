import TreebankGrammar.Grammar.Counting

/-!
# Estimation

The weight of a rule is its count divided by the count of its left-hand side, the maximum
likelihood estimate.

Main definitions:

- `Grammar.estimate`: sets all weights and freezes the grammar.
- `Grammar.ofTreebank`: the grammar of a treebank file.
-/

namespace TreebankGrammar
namespace Grammar

/-- Sets the weight of one rule unless an error has stopped the estimation. -/
def estimateTally (total : Int) (stopped : Option Error) (_ : Body) (tally : Tally) :
    Option Error × Tally :=
  match stopped with
  | some e => (some e, tally)
  | none =>
    match Binary64.quotient? tally.count total with
    | some weight => (none, { tally with weight })
    | none => (some .overflow, tally)

/-- Sets the weights of one row unless an error has stopped the estimation. -/
def estimateRow (g : Grammar) (stopped : Option Error) (symbol : String) (row : Row) :
    Option Error × Row :=
  match stopped with
  | some e => (some e, row)
  | none =>
    let total := g.symbolCount symbol
    if total ≤ 0 then (some (Inconsistency.notPositive symbol total).error, row)
    else row.mapAccum (estimateTally total) none

/-- Sets the weight of each rule to its count divided by the count of its left-hand side.  An error
stops the estimation; the weights set before it stay. -/
def estimate (g : Grammar) : Outcome Unit :=
  match g.checkCounts with
  | .error e => .error g e
  | .ok () =>
    let (stopped, rows) := g.rows.mapAccum g.estimateRow none
    match stopped with
    | some e => .error { g with rows } e
    | none =>
      { grammar := { g with rows, normalised := true }
        notices := [.estimated g.size rows.size]
        result := .ok () }

/-- The grammar of a treebank file, with estimated weights if they are wanted. -/
def ofTreebank (d : Directory) (file : String) (limits : Treebank.Limits) (normalise : Bool) :
    Outcome Unit :=
  let counted := empty.countTreebank d file limits
  match counted.result with
  | .error e => { counted with result := .error e }
  | .ok _ =>
    if normalise then counted.grammar.estimate.after counted.notices
    else { counted with result := .ok () }

end Grammar
end TreebankGrammar
