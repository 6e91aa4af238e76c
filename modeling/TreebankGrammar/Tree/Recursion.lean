import TreebankGrammar.Tree.Basic

/-!
# Trees by recursion

The bracketed form, the words and the height of a tree as recursion on the tree defines
them: each is put together from those of the children.

Main definitions:

- `Tree.bracketed`: the bracketed form.
- `Tree.leaves`: the labels of the terminals, from left to right.
- `Tree.height`: zero for a terminal, otherwise one more than the greatest among the children.
-/

namespace TreebankGrammar
namespace Tree

mutual

/-- The bracketed form of a tree. -/
def bracketed : Tree → String
  | .node l [] => l
  | .node l (c :: cs) => "(" ++ l ++ bracketedItems (c :: cs) ++ ")"

/-- The bracketed forms of a sequence of trees, a blank before each. -/
def bracketedItems : List Tree → String
  | [] => ""
  | t :: ts => " " ++ t.bracketed ++ bracketedItems ts

end

mutual

/-- The labels of the terminals of a tree. -/
def leaves : Tree → List String
  | .node l [] => [l]
  | .node _ (c :: cs) => leavesAll (c :: cs)

/-- The labels of the terminals of a sequence of trees. -/
def leavesAll : List Tree → List String
  | [] => []
  | t :: ts => t.leaves ++ leavesAll ts

end

mutual

/-- The height of a tree. -/
def height : Tree → Nat
  | .node _ [] => 0
  | .node _ (c :: cs) => 1 + heightAll (c :: cs)

/-- The greatest height in a sequence of trees. -/
def heightAll : List Tree → Nat
  | [] => 0
  | t :: ts => max t.height (heightAll ts)

end

end Tree
end TreebankGrammar
