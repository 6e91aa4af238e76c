import TreebankGrammar.Grammar.Basic
import TreebankGrammar.Notice

/-!
# Outcomes

What an operation on a grammar leaves behind: the grammar, also when the operation fails,
what was reported, and the result or the error.

Main definitions:

- `Outcome`: grammar, notices and result.
-/

namespace TreebankGrammar

/-- What an operation on a grammar leaves behind. -/
structure Outcome (α : Type) where
  grammar : Grammar
  notices : List Notice := []
  result : Except Grammar.Error α

namespace Outcome

variable {α : Type}

/-- The operation succeeds. -/
def ok (g : Grammar) (value : α) : Outcome α :=
  { grammar := g, result := .ok value }

/-- The operation fails. -/
def error (g : Grammar) (e : Grammar.Error) : Outcome α :=
  { grammar := g, result := .error e }

/-- The outcome with notices in front of its own. -/
def after (notices : List Notice) (outcome : Outcome α) : Outcome α :=
  { outcome with notices := notices ++ outcome.notices }

end Outcome
end TreebankGrammar
