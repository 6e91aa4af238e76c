import TreebankGrammar.Rule.Basic

/-!
# Rule specifications

The parts from which a rule is made, which need not fit together, and the comparison of rules
with texts.

Main definitions:

- `RuleSpec`: the parts of a rule.
- `RuleSpec.rule?`: the rule with these parts.
- `Comparand`: a rule, or a text that is compared with rules.
-/

namespace TreebankGrammar

/-- The parts from which a rule is made. -/
structure RuleSpec where
  lhs : String
  rhs : List String
  lexical : Bool := false
  weight : Weight := .zero

/-- The rule with the given parts; a lexical one needs exactly one symbol on the right. -/
def RuleSpec.rule? (spec : RuleSpec) : Except LexicalError Rule :=
  match Production.make? spec.lhs spec.rhs spec.lexical with
  | .ok p => .ok (.ofProduction p spec.weight)
  | .error e => .error e

/-- A rule, or a text that is compared with rules. -/
inductive Comparand where
  | rule (r : Rule)
  | text (s : String)

/-- Rules are compared as rules; a text is the same as an equal text only. -/
def Comparand.same : Comparand → Comparand → Bool
  | .rule r, .rule s => r.same s
  | .text s, .text t => s == t
  | _, _ => false

end TreebankGrammar
