import Mathlib.Data.Finset.Card
import TreebankGrammar.Proofs.Grammar.Growth

/-!
# Symbols of trees

A grammar that has grown from trees tells of its symbols what can be seen at the nodes of these trees.
Nodes without children leave no production of their own, but those below the root of a tree stand on the
right of the production of their parent, so that no label is lost.

Main definitions:

- `Tree.nodesOf`: the nodes of those trees of a list that have children.
- `Grammar.Describes`: a grammar has the symbols and as many rules as can be seen at nodes.

Main results:

- Theorem `Tree.exists_parent`: a node below the root is a child of a node.
- Theorem `Tree.exists_label_iff`: the symbols of the productions are the labels of the nodes.
- Theorem `Grammar.Grown.describes`: a grammar that has grown from trees describes their nodes.
-/

namespace TreebankGrammar

/-! ## Parents and children -/

namespace Tree

theorem mem_nodes_self (t : Tree) : t ∈ t.nodes := by
  cases t
  exact List.mem_cons_self

theorem mem_nodesAll_of_mem {ts : List Tree} {t : Tree} (h : t ∈ ts) : t ∈ nodesAll ts := by
  induction ts with
  | nil => cases h
  | cons u ts ih =>
    rw [nodesAll]
    rcases List.mem_cons.1 h with rfl | h
    · exact List.mem_append_left _ t.mem_nodes_self
    · exact List.mem_append_right _ (ih h)

mutual

/-- The children of a node are nodes. -/
theorem mem_nodes_of_mem_children (t : Tree) : ∀ n ∈ t.nodes, ∀ c ∈ n.children, c ∈ t.nodes := by
  match t with
  | .node l cs =>
    rw [nodes, List.forall_mem_cons]
    constructor
    · intro c hc
      exact List.mem_cons_of_mem _ (mem_nodesAll_of_mem hc)
    · intro n hn c hc
      exact List.mem_cons_of_mem _ (mem_nodesAll_of_mem_children cs n hn c hc)

theorem mem_nodesAll_of_mem_children (ts : List Tree) :
    ∀ n ∈ nodesAll ts, ∀ c ∈ n.children, c ∈ nodesAll ts := by
  match ts with
  | [] => exact fun n hn => by cases hn
  | t :: ts =>
    rw [nodesAll, List.forall_mem_append]
    constructor
    · intro n hn c hc
      exact List.mem_append_left _ (mem_nodes_of_mem_children t n hn c hc)
    · intro n hn c hc
      exact List.mem_append_right _ (mem_nodesAll_of_mem_children ts n hn c hc)

end

mutual

/-- A node below the root is a child of a node. -/
theorem exists_parent (t : Tree) : ∀ n ∈ t.nodes, n = t ∨ ∃ m ∈ t.nodes, n ∈ m.children := by
  match t with
  | .node l cs =>
    rw [nodes, List.forall_mem_cons]
    refine ⟨Or.inl rfl, fun n hn => Or.inr ?_⟩
    rcases exists_parentAll cs n hn with hchild | ⟨m, hm, hchild⟩
    · exact ⟨.node l cs, List.mem_cons_self, hchild⟩
    · exact ⟨m, List.mem_cons_of_mem _ hm, hchild⟩

theorem exists_parentAll (ts : List Tree) :
    ∀ n ∈ nodesAll ts, n ∈ ts ∨ ∃ m ∈ nodesAll ts, n ∈ m.children := by
  match ts with
  | [] => exact fun n hn => by cases hn
  | t :: ts =>
    rw [nodesAll, List.forall_mem_append]
    constructor
    · intro n hn
      rcases exists_parent t n hn with rfl | ⟨m, hm, hchild⟩
      · exact Or.inl List.mem_cons_self
      · exact Or.inr ⟨m, List.mem_append_left _ hm, hchild⟩
    · intro n hn
      rcases exists_parentAll ts n hn with hmem | ⟨m, hm, hchild⟩
      · exact Or.inl (List.mem_cons_of_mem _ hmem)
      · exact Or.inr ⟨m, List.mem_append_right _ hm, hchild⟩

end

/-! ## Trees with children -/

theorem isTerminal_iff (t : Tree) : t.isTerminal = true ↔ t.children = [] :=
  List.isEmpty_iff

/-- The nodes of those trees of a list that have children. -/
def nodesOf (ts : List Tree) : List Tree :=
  (ts.filter fun t => !t.isTerminal).flatMap nodes

theorem mem_nodesOf_iff {ts : List Tree} {n : Tree} :
    n ∈ nodesOf ts ↔ ∃ t ∈ ts, t.children ≠ [] ∧ n ∈ t.nodes := by
  simp only [nodesOf, List.mem_flatMap, List.mem_filter, Bool.not_eq_true', Bool.eq_false_iff, ne_eq,
    isTerminal_iff, and_assoc]

/-- The productions of trees are those of the nodes with children. -/
theorem flatMap_productions (ts : List Tree) :
    ts.flatMap productions = ((nodesOf ts).filter fun n => !n.isTerminal).map production := by
  induction ts with
  | nil => rfl
  | cons t ts ih =>
    obtain ⟨l, cs⟩ := t
    cases cs with
    | nil =>
      -- A tree without children is left out, and it has no productions.
      exact ih
    | cons c cs =>
      have hnodes : nodesOf (.node l (c :: cs) :: ts) = (node l (c :: cs)).nodes ++ nodesOf ts := rfl
      rw [List.flatMap_cons, ih, hnodes, List.filter_append, List.map_append, productions_eq_map]

/-- The productions of trees, node by node. -/
theorem mem_flatMap_productions_iff {ts : List Tree} {p : Production} :
    p ∈ ts.flatMap productions ↔ ∃ n ∈ nodesOf ts, n.children ≠ [] ∧ n.production = p := by
  simp only [flatMap_productions, List.mem_map, List.mem_filter, Bool.not_eq_true',
    Bool.eq_false_iff, ne_eq, isTerminal_iff, and_assoc]

/-- The left-hand sides of the productions of trees are the labels of the nodes with children. -/
theorem exists_lhs_iff (ts : List Tree) (s : String) :
    (∃ p ∈ ts.flatMap productions, p.lhs = s) ↔
      ∃ n ∈ nodesOf ts, n.children ≠ [] ∧ n.label = s := by
  simp only [mem_flatMap_productions_iff]
  constructor
  · rintro ⟨-, ⟨n, hn, hchildren, rfl⟩, rfl⟩
    exact ⟨n, hn, hchildren, rfl⟩
  · rintro ⟨n, hn, hchildren, rfl⟩
    exact ⟨n.production, ⟨n, hn, hchildren, rfl⟩, rfl⟩

/-- The symbols of the productions of trees are the labels of the nodes. -/
theorem exists_label_iff (ts : List Tree) (s : String) :
    (∃ p ∈ ts.flatMap productions, s ∈ p.lhs :: p.rhs) ↔ ∃ n ∈ nodesOf ts, n.label = s := by
  simp only [mem_flatMap_productions_iff]
  constructor
  · rintro ⟨-, ⟨n, hn, -, rfl⟩, hs⟩
    rw [lhs_production, rhs_production, childLabels, List.mem_cons] at hs
    rcases hs with rfl | hs
    · exact ⟨n, hn, rfl⟩
    · obtain ⟨c, hc, rfl⟩ := List.mem_map.1 hs
      obtain ⟨t, ht, hchildren, hn⟩ := mem_nodesOf_iff.1 hn
      exact ⟨c, mem_nodesOf_iff.2 ⟨t, ht, hchildren, t.mem_nodes_of_mem_children n hn c hc⟩, rfl⟩
  · rintro ⟨n, hn, rfl⟩
    by_cases hinner : n.children = []
    · -- A node without children is not a root, so that its label is on the right at its parent.
      obtain ⟨t, ht, hchildren, hnode⟩ := mem_nodesOf_iff.1 hn
      rcases t.exists_parent n hnode with rfl | ⟨m, hm, hchild⟩
      · exact absurd hinner hchildren
      · refine ⟨m.production, ⟨m, mem_nodesOf_iff.2 ⟨t, ht, hchildren, hm⟩, ?_, rfl⟩, ?_⟩
        · exact List.ne_nil_of_mem hchild
        · rw [rhs_production]
          exact List.mem_cons_of_mem _ (List.mem_map_of_mem hchild)
    · exact ⟨n.production, ⟨n, hn, hinner, rfl⟩, List.mem_cons_self⟩

/-! ## What counts of a node -/

/-- The label of a node, the labels of its children, and whether it has a single child, which is a
word. -/
def triple (n : Tree) : String × List String × Bool :=
  (n.label, n.childLabels, n.isLexical)

end Tree

/-- The parts of a production. -/
def Production.triple (p : Production) : String × List String × Bool :=
  (p.lhs, p.rhs, p.lexical)

theorem Production.triple_injective : Function.Injective triple := by
  rintro ⟨⟨rhs, lexical, _⟩, lhs⟩ ⟨⟨rhs', lexical', _⟩, lhs'⟩ h
  simp only [triple, Prod.mk.injEq] at h
  obtain ⟨rfl, rfl, rfl⟩ := h
  rfl

theorem Tree.triple_production (n : Tree) : n.production.triple = n.triple := by
  rw [Production.triple, lhs_production, rhs_production, lexical_production, triple]

/-- The productions of trees have the triples of the nodes with children. -/
theorem Tree.toFinset_triples (ts : List Tree) :
    (((nodesOf ts).filter fun n => !n.isTerminal).map triple).toFinset =
      (ts.flatMap productions).toFinset.image Production.triple := by
  ext x
  simp [flatMap_productions, triple_production]

namespace Grammar

/-- The symbols of a grammar are the labels of nodes: nonterminals, which are the keys of its counts
as well, are labels of nodes with children, and terminals are labels of leaves that are labels of no
node with children.  It has as many rules as nodes with children differ in their labels, the
labels of their children and in whether the only child is a word. -/
structure Describes (g : Grammar) (nodes : List Tree) : Prop where
  nonterminals : ∀ s, s ∈ g.nonterminals ↔ ∃ n ∈ nodes, n.children ≠ [] ∧ n.label = s
  symbolCounts : ∀ s, s ∈ g.symbolCounts.keys ↔ ∃ n ∈ nodes, n.children ≠ [] ∧ n.label = s
  symbols : ∀ s, s ∈ g.symbols ↔ ∃ n ∈ nodes, n.label = s
  terminals : ∀ s, s ∈ g.terminals ↔
    (∃ n ∈ nodes, n.children = [] ∧ n.label = s) ∧ ∀ n ∈ nodes, n.children ≠ [] → n.label ≠ s
  disjoint : ∀ s ∈ g.nonterminals, s ∉ g.terminals
  union : ∀ s, s ∈ g.symbols ↔ s ∈ g.nonterminals ∨ s ∈ g.terminals
  size : g.size =
    ((nodes.filter fun n => !n.isTerminal).map Tree.triple).toFinset.card

/-- The number of rules is the number of different productions in the log. -/
theorem IsLogged.size_eq {g : Grammar} {log : List Production} (h : g.IsLogged log) :
    g.size = log.toFinset.card := by
  have hrules : (g.rules.map Rule.toProduction).toFinset = log.toFinset := by
    ext p
    rw [List.mem_toFinset, List.mem_toFinset, List.mem_map, h.exists_rule_iff]
  rw [size_eq_length, ← hrules, List.toFinset_card_of_nodup g.nodup_productions, List.length_map]

/-- A grammar that has grown from trees, by counting and merging, has the symbols and as many rules as
can be seen at the nodes of those of the trees that have children. -/
theorem Grown.describes {g : Grammar} {ts : List Tree} (h : g.Grown ts) :
    g.Describes (Tree.nodesOf ts) := by
  have hlogged := h.isLogged
  have hnonterminals : ∀ s, s ∈ g.nonterminals ↔
      ∃ n ∈ Tree.nodesOf ts, n.children ≠ [] ∧ n.label = s := fun s =>
    (hlogged.mem_nonterminals_iff s).trans (Tree.exists_lhs_iff ts s)
  have hsymbols : ∀ s, s ∈ g.symbols ↔ ∃ n ∈ Tree.nodesOf ts, n.label = s := fun s =>
    (hlogged.mem_symbols_iff s).trans (Tree.exists_label_iff ts s)
  refine ⟨hnonterminals, fun s => ?symbolCounts, hsymbols, fun s => ?terminals, fun s hs => ?disjoint,
    fun s => ?union, ?size⟩
  case symbolCounts => rw [← hlogged.lists.keys, ← mem_nonterminals_iff, hnonterminals]
  case terminals =>
    rw [mem_terminals_iff, hsymbols, hnonterminals]
    constructor
    · rintro ⟨⟨n, hn, rfl⟩, hinner⟩
      have hlabels : ∀ m ∈ Tree.nodesOf ts, m.children ≠ [] → m.label ≠ n.label :=
        fun m hm hchildren hlabel => hinner ⟨m, hm, hchildren, hlabel⟩
      have hleaf : n.children = [] :=
        Classical.byContradiction fun hchildren => hlabels n hn hchildren rfl
      exact ⟨⟨n, hn, hleaf, rfl⟩, hlabels⟩
    · rintro ⟨⟨n, hn, -, rfl⟩, hlabels⟩
      exact ⟨⟨n, hn, rfl⟩, fun ⟨m, hm, hchildren, hlabel⟩ => hlabels m hm hchildren hlabel⟩
  case disjoint =>
    rw [mem_terminals_iff]
    exact fun hterminal => hterminal.2 hs
  case union =>
    rw [mem_terminals_iff]
    constructor
    · intro hs
      by_cases hinner : s ∈ g.nonterminals
      · exact Or.inl hinner
      · exact Or.inr ⟨hs, hinner⟩
    · rintro (hinner | ⟨hs, -⟩)
      · exact mem_symbols_of_mem_nonterminals hinner
      · exact hs
  case size =>
    rw [Tree.toFinset_triples, Finset.card_image_of_injective _ Production.triple_injective,
      hlogged.size_eq]

/-- A tree with a word that is a nonterminal elsewhere. -/
def wordTree : Tree :=
  .node "S" [.node "A" [.node "B" []]]

/-- A tree with this nonterminal. -/
def labelTree : Tree :=
  .node "B" [.node "b" []]

/-- One grammar has counted the tree with the word and a tree without children, another one that with
the nonterminal; they are merged.  The word is no terminal any more, and the tree without children
has left no symbol. -/
theorem describes_wordAndLabel :
    ∃ merged, (empty.addAll wordTree.productions).merge (empty.addAll labelTree.productions) =
        .ok merged ∧
      merged.Describes (Tree.nodesOf [wordTree, .node "w" [], labelTree]) ∧
      "B" ∈ merged.nonterminals ∧ "B" ∉ merged.terminals ∧ "w" ∉ merged.symbols ∧
      merged.size = 3 := by
  have hfirst : (empty.addAll wordTree.productions).Grown [wordTree] :=
    Grown.empty.addTree rfl (by decide)
  have hword : (empty.addAll wordTree.productions).Grown [wordTree, .node "w" []] :=
    hfirst.addTree (t := .node "w" []) rfl (by decide)
  have hlabel : (empty.addAll labelTree.productions).Grown [labelTree] :=
    Grown.empty.addTree rfl (by decide)
  obtain ⟨merged, hmerge, -⟩ :=
    (hword.isLogged.isPass rfl).merge (hlabel.isLogged.isPass rfl)
  have hdescribes : merged.Describes (Tree.nodesOf [wordTree, .node "w" [], labelTree]) :=
    (hword.merge hlabel hmerge).describes
  have hB : "B" ∈ merged.nonterminals := by
    refine (hdescribes.nonterminals "B").2 ⟨labelTree, Tree.mem_nodesOf_iff.2 ?_, ?_, rfl⟩
    · exact ⟨labelTree, by simp, List.cons_ne_nil _ _, labelTree.mem_nodes_self⟩
    · exact List.cons_ne_nil _ _
  refine ⟨merged, hmerge, hdescribes, hB, hdescribes.disjoint _ hB, ?_, hdescribes.size⟩
  rw [hdescribes.symbols, ← List.mem_map]
  decide

end Grammar
end TreebankGrammar
