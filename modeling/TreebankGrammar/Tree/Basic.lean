/-!
# Constituency trees

A tree node has a label and a sequence of children.  A node without children is a terminal, a
word; every other node is labelled with a nonterminal.

Main definitions:

- `Tree`: labelled ordered trees.
- `Tree.preorder`: all nodes, each before its children.
- `Tree.yield`: the words at the terminals, from left to right.
- `Tree.depth`: the number of nonterminal levels.

The traversals keep the nodes that are still to be visited in a list, so that a deep tree needs
no deep recursion.
-/

namespace TreebankGrammar

/-- A node of a constituency tree. -/
inductive Tree where
  | node (label : String) (children : List Tree)

namespace Tree

instance : Inhabited Tree :=
  ⟨.node "" []⟩

/-- The label of a node. -/
def label : Tree → String
  | .node l _ => l

/-- The children of a node, from left to right. -/
def children : Tree → List Tree
  | .node _ cs => cs

/-- A node is terminal when it has no children. -/
def isTerminal (t : Tree) : Bool :=
  t.children.isEmpty

/-- The labels of the children, from left to right. -/
def childLabels (t : Tree) : List String :=
  t.children.map label

@[simp]
theorem label_node (l : String) (cs : List Tree) : (node l cs).label = l :=
  rfl

@[simp]
theorem children_node (l : String) (cs : List Tree) : (node l cs).children = cs :=
  rfl

/-! ## Size -/

mutual

/-- The number of nodes of a tree. -/
def size : Tree → Nat
  | .node _ cs => 1 + sizeAll cs

/-- The number of nodes of a sequence of trees. -/
def sizeAll : List Tree → Nat
  | [] => 0
  | t :: ts => t.size + sizeAll ts

end

@[simp]
theorem sizeAll_append (ts us : List Tree) : sizeAll (ts ++ us) = sizeAll ts + sizeAll us := by
  induction ts with
  | nil => simp [sizeAll]
  | cons t ts ih => simp [sizeAll, ih, Nat.add_assoc]

/-! ## Traversals -/

/-- Visits the pending trees in order, each node before its children; the nodes
visited so far are kept in reverse order. -/
def visit (visited : List Tree) : List Tree → List Tree
  | [] => visited.reverse
  | .node l cs :: pending => visit (.node l cs :: visited) (cs ++ pending)
termination_by pending => sizeAll pending
decreasing_by
  simp only [sizeAll_append, sizeAll, size]
  omega

/-- All nodes of a tree, each before its children, children from left to right. -/
def preorder (t : Tree) : List Tree :=
  visit [] [t]

/-- The labels of the terminals, from left to right. -/
def yield (t : Tree) : List String :=
  (t.preorder.filter isTerminal).map label

/-- The greatest level of a terminal among the pending trees, each with its own level. -/
def deepest (best : Nat) : List (Tree × Nat) → Nat
  | [] => best
  | (.node _ [], level) :: pending => deepest (max best level) pending
  | (.node _ (c :: cs), level) :: pending =>
    deepest best ((c :: cs).map (fun child => (child, level + 1)) ++ pending)
termination_by pending => sizeAll (pending.map Prod.fst)
decreasing_by
  · simp only [List.map_cons, sizeAll, size]
    omega
  · simp only [List.map_append, List.map_cons, List.map_map, Function.comp_def, List.map_id',
      sizeAll_append, sizeAll, size]
    omega

/-- The number of nonterminal levels above the deepest word. -/
def depth (t : Tree) : Nat :=
  deepest 0 [(t, 0)]

end Tree
end TreebankGrammar
