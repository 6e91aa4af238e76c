import TreebankGrammar.Number.Writing
import TreebankGrammar.Rule.Production
import TreebankGrammar.Text.Quoted

/-!
# Weighted rules

A rule is a production with a weight.  The weight is not part of a rule's identity: two rules
are the same rule when their productions are equal.

Main definitions:

- `Rule`: a production and its weight.
- `Rule.same`: whether two rules have the same production.
- `Rule.text`: the line that stands for a rule in a rule file.
- `Rule.shown`: the form in which a rule is shown for inspection.
-/

namespace TreebankGrammar

/-- The weights of rules are floating-point numbers. -/
abbrev Weight :=
  Binary64

/-- A production with a weight. -/
structure Rule extends Production where
  weight : Weight
deriving DecidableEq

namespace Rule

/-- The rule with a production and a weight. -/
def ofProduction (p : Production) (weight : Weight) : Rule :=
  { p with weight }

/-- Whether two rules have the same production, whatever their weights. -/
def same (r s : Rule) : Bool :=
  decide (r.toProduction = s.toProduction)

/-- The mark between the two sides of a rule. -/
def arrow : String :=
  "->"

/-- The line of a rule: weight, left-hand side, arrow and right-hand side, with single blanks. -/
def text (r : Rule) : String :=
  r.weight.text ++ " " ++ r.lhs ++ " " ++ arrow ++ " " ++ " ".intercalate r.rhs

/-- The form in which a rule is shown for inspection. -/
def shown (r : Rule) : String :=
  "Rule(" ++ Text.quoted r.lhs ++ ", " ++ Text.quotedTuple r.rhs ++ ", lexical=" ++
    Text.truthName r.lexical ++ ", weight=" ++ r.weight.text ++ ")"

@[simp]
theorem toProduction_ofProduction (p : Production) (weight : Weight) :
    (ofProduction p weight).toProduction = p :=
  rfl

/-- Rules that differ in weight only are the same rule. -/
@[simp]
theorem same_ofProduction (p : Production) (v w : Weight) :
    (ofProduction p v).same (ofProduction p w) = true := by
  simp [same]

end Rule
end TreebankGrammar
