import TreebankGrammar.Tree.Recursion
import TreebankGrammar.Tree.Text

/-!
# Traversals of trees

The traversals that keep what is still to be done in a list give what recursion on the tree gives.

Main definitions:

- `Tree.openText`: what is still to be written while nodes are open.
- `Tree.nodes`: all nodes of a tree by recursion.
- `Tree.reach`: the greatest level of a terminal among pending trees.

Main results:

- Theorem `Tree.text_eq_bracketed`: the text of a tree is its bracketed form.
- Theorem `Tree.preorder_eq_nodes`: the nodes are visited in the order in which recursion lists them.
- Theorem `Tree.yield_eq_leaves`: the words of a tree are its leaves from left to right.
- Theorem `Tree.depth_eq_height`: the depth of a tree is its height.
-/

namespace TreebankGrammar
namespace Tree

/-! ## The text -/

/-- What is still to be written: the remaining children of each open node, the innermost node first,
each followed by a closing bracket. -/
def openText : List (List Tree) → String
  | [] => ""
  | siblings :: outer => bracketedItems siblings ++ ")" ++ openText outer

/-- A text is completed by what is still to be written. -/
theorem writeOpen_eq (written : String) (stack : List (List Tree)) :
    writeOpen written stack = written ++ openText stack := by
  fun_induction writeOpen written stack with
  | case1 written => simp [openText]
  | case2 written outer ih =>
    rw [ih]
    simp [openText, bracketedItems, String.append_assoc]
  | case3 written l siblings outer ih =>
    rw [ih]
    simp [openText, bracketedItems, bracketed, String.append_assoc]
  | case4 written l c cs siblings outer ih =>
    -- The blank and the bracket that are written at once belong to the sequence and to the node.
    have hopening : " (" = " " ++ "(" := rfl
    rw [ih, hopening]
    simp only [openText, bracketedItems, bracketed, String.append_assoc]

/-- The text of a tree is its bracketed form. -/
theorem text_eq_bracketed (t : Tree) : t.text = t.bracketed := by
  match t with
  | .node l [] => rw [text, bracketed]
  | .node l (c :: cs) =>
    rw [text, bracketed, writeOpen_eq, openText, openText]
    simp [String.append_assoc]

/-! ## The nodes -/

mutual

/-- The nodes of a tree, each before its children. -/
def nodes : Tree → List Tree
  | .node l cs => .node l cs :: nodesAll cs

/-- The nodes of a sequence of trees. -/
def nodesAll : List Tree → List Tree
  | [] => []
  | t :: ts => t.nodes ++ nodesAll ts

end

theorem nodesAll_append (ts us : List Tree) : nodesAll (ts ++ us) = nodesAll ts ++ nodesAll us := by
  induction ts with
  | nil => rfl
  | cons t ts ih => rw [List.cons_append, nodesAll, nodesAll, ih, List.append_assoc]

/-- The nodes of the pending trees are visited after those visited so far. -/
theorem visit_eq (visited pending : List Tree) :
    visit visited pending = visited.reverse ++ nodesAll pending := by
  fun_induction visit visited pending with
  | case1 visited => rw [nodesAll, List.append_nil]
  | case2 visited l cs pending ih =>
    rw [ih, nodesAll_append, nodesAll, nodes]
    simp

/-- The nodes are visited each before its children. -/
theorem preorder_eq_nodes (t : Tree) : t.preorder = t.nodes := by
  rw [preorder, visit_eq]
  simp [nodesAll]

/-! ## The words -/

mutual

/-- The leaves are the labels of the nodes without children. -/
theorem map_label_filter_nodes (t : Tree) : (t.nodes.filter isTerminal).map label = t.leaves := by
  match t with
  | .node l [] => rfl
  | .node l (c :: cs) =>
    have hterminal : ¬isTerminal (node l (c :: cs)) = true := Bool.false_ne_true
    rw [nodes, List.filter_cons_of_neg hterminal, map_label_filter_nodesAll (c :: cs), leaves]

theorem map_label_filter_nodesAll (ts : List Tree) :
    ((nodesAll ts).filter isTerminal).map label = leavesAll ts := by
  match ts with
  | [] => rfl
  | t :: ts =>
    rw [nodesAll, List.filter_append, List.map_append, map_label_filter_nodes t,
      map_label_filter_nodesAll ts, leavesAll]

end

/-- The words of a tree are its leaves from left to right. -/
theorem yield_eq_leaves (t : Tree) : t.yield = t.leaves := by
  rw [yield, preorder_eq_nodes, map_label_filter_nodes]

/-! ## The depth -/

/-- The greatest level of a terminal among pending trees, each of which lies at its own level. -/
def reach : List (Tree × Nat) → Nat
  | [] => 0
  | (t, level) :: pending => max (level + t.height) (reach pending)

theorem reach_append (pending later : List (Tree × Nat)) :
    reach (pending ++ later) = max (reach pending) (reach later) := by
  induction pending with
  | nil => simp [reach]
  | cons entry pending ih => rw [List.cons_append, reach, reach, ih, Nat.max_assoc]

/-- The children of a node lie at one level. -/
theorem reach_children (c : Tree) (cs : List Tree) (level : Nat) :
    reach ((c :: cs).map fun child => (child, level)) = level + heightAll (c :: cs) := by
  induction cs generalizing c with
  | nil => simp [reach, heightAll]
  | cons d ds ih =>
    rw [List.map_cons, reach, ih d]
    simp only [heightAll]
    omega

/-- The greatest level found so far is compared with what the pending trees reach. -/
theorem deepest_eq (best : Nat) (pending : List (Tree × Nat)) :
    deepest best pending = max best (reach pending) := by
  fun_induction deepest best pending with
  | case1 best => simp [reach]
  | case2 best l level pending ih =>
    rw [ih, reach, height]
    omega
  | case3 best l c cs level pending ih =>
    -- The children lie one level deeper, which the height of their node counts as well.
    rw [ih, reach_append, reach_children, reach, height]
    omega

/-- The depth of a tree is its height. -/
theorem depth_eq_height (t : Tree) : t.depth = t.height := by
  rw [depth, deepest_eq, reach, reach]
  omega

end Tree
end TreebankGrammar
