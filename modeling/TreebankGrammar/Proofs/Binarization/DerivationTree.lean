import Mathlib.Algebra.BigOperators.Group.List.Basic
import TreebankGrammar.Rule.Basic

/-!
# Derivation trees

A derivation tree over a list of rules is a leaf, or a node at which a rule of the list is used,
with one subtree for each symbol on the right of the rule.

Main definitions:

- `DerivationTree.frontier`: the symbols at the leaves, from left to right.
- `DerivationTree.weight`: the product of the weights of the rules used.
- `DerivationTree.Valid`: the trees over a list of rules, whose leaves are among given symbols.
- `Derivations`: the valid trees of one symbol.
-/

namespace TreebankGrammar

/-- A leaf with a symbol, or a use of a rule with the subtrees below it. -/
inductive DerivationTree where
  | leaf (symbol : String)
  | node (rule : Rule) (children : List DerivationTree)

namespace DerivationTree

/-- The symbol that a tree derives from. -/
def root : DerivationTree → String
  | .leaf s => s
  | .node r _ => r.lhs

@[simp]
theorem root_leaf (s : String) : (leaf s).root = s :=
  rfl

@[simp]
theorem root_node (r : Rule) (cs : List DerivationTree) : (node r cs).root = r.lhs :=
  rfl

/-! ## Frontiers and rules -/

mutual

/-- The symbols at the leaves, from left to right. -/
def frontier : DerivationTree → List String
  | .leaf s => [s]
  | .node _ cs => frontiers cs

/-- The symbols at the leaves of a sequence of trees. -/
def frontiers : List DerivationTree → List String
  | [] => []
  | t :: ts => t.frontier ++ frontiers ts

end

mutual

/-- The rules used in a tree, each before those below it. -/
def rulesUsed : DerivationTree → List Rule
  | .leaf _ => []
  | .node r cs => r :: rulesUsedAll cs

/-- The rules used in a sequence of trees. -/
def rulesUsedAll : List DerivationTree → List Rule
  | [] => []
  | t :: ts => t.rulesUsed ++ rulesUsedAll ts

end

@[simp]
theorem frontiers_append (ts us : List DerivationTree) :
    frontiers (ts ++ us) = frontiers ts ++ frontiers us := by
  induction ts with
  | nil => rfl
  | cons t ts ih => simp [frontiers, ih]

@[simp]
theorem rulesUsedAll_append (ts us : List DerivationTree) :
    rulesUsedAll (ts ++ us) = rulesUsedAll ts ++ rulesUsedAll us := by
  induction ts with
  | nil => rfl
  | cons t ts ih => simp [rulesUsedAll, ih]

/-! ## Weights -/

section Weight

variable {M : Type} [CommMonoid M] (value : Weight → M)

/-- The product of the values of the weights of rules. -/
def ruleProduct (rules : List Rule) : M :=
  (rules.map fun r => value r.weight).prod

/-- The product of the weights of the rules used. -/
def weight (t : DerivationTree) : M :=
  ruleProduct value t.rulesUsed

@[simp]
theorem ruleProduct_nil : ruleProduct value [] = 1 :=
  rfl

@[simp]
theorem ruleProduct_cons (r : Rule) (rules : List Rule) :
    ruleProduct value (r :: rules) = value r.weight * ruleProduct value rules := by
  simp [ruleProduct]

@[simp]
theorem ruleProduct_append (rules rules' : List Rule) :
    ruleProduct value (rules ++ rules') =
      ruleProduct value rules * ruleProduct value rules' := by
  simp [ruleProduct]

end Weight

/-! ## Valid trees -/

/-- The derivation trees over a list of rules: at each node a rule of the list is used, the roots
of the subtrees are the symbols on its right in order, and only the given symbols stand at leaves.
-/
inductive Valid (rules : List Rule) (symbols : List String) : DerivationTree → Prop
  | leaf {s : String} (hs : s ∈ symbols) : Valid rules symbols (.leaf s)
  | node {r : Rule} {cs : List DerivationTree} (hr : r ∈ rules) (hroots : cs.map root = r.rhs)
      (hcs : ∀ c ∈ cs, Valid rules symbols c) : Valid rules symbols (.node r cs)

end DerivationTree

/-- The derivation trees of a symbol over a list of rules. -/
def Derivations (rules : List Rule) (symbols : List String) (A : String) : Type :=
  { t : DerivationTree // t.Valid rules symbols ∧ t.root = A }

end TreebankGrammar
