import TreebankGrammar.Proofs.Tree.Labels
import TreebankGrammar.Proofs.Tree.Traversals

/-!
# Productions of trees

The productions of a tree by recursion: the production of a node stands before those of its children.
They are what is collected from the tree when it is counted.  A child with children has a
production of its own, so that a production with one symbol on the right that is not lexical is
followed by one for this symbol.

Main definitions:

- `Tree.productions`: the production of each node with children, in preorder.
- `Tree.production`: the production of one node.
- `Production.ChainsEnd`: single symbols on the right of productions have productions themselves.

Main results:

- Theorem `Tree.eq_productions`: what is collected from a tree are its productions.
- Theorem `Tree.productions_eq_map`: they are the productions of its nodes with children.
- Theorem `Candidate.exists_toCandidate`: only trees have productions.
- Theorem `Tree.chainsEnd_productions`: the productions of a tree lead on to words.
-/

namespace TreebankGrammar

/-! ## Productions by recursion -/

namespace Tree

/-- What a node with the given children is rewritten as: a single child without children is a word. -/
def bodyOf : List Tree → Body
  | [.node w []] => .ofWord w
  | ts => .phrasal (ts.map label)

mutual

/-- The production of each node with children of a tree, each before those of its children. -/
def productions : Tree → List Production
  | .node _ [] => []
  | .node l (c :: cs) => .ofBody l (bodyOf (c :: cs)) :: productionsAll (c :: cs)

/-- The productions of a sequence of trees. -/
def productionsAll : List Tree → List Production
  | [] => []
  | t :: ts => t.productions ++ productionsAll ts

end

theorem toCandidates_eq_map (ts : List Tree) : toCandidates ts = ts.map toCandidate := by
  induction ts with
  | nil => rfl
  | cons t ts ih => rw [toCandidates, List.map_cons, ih]

/-- A node is rewritten as the same when it is offered as a tree. -/
theorem bodyOf_toCandidates (ts : List Tree) :
    Candidate.bodyOf (toCandidates ts) = bodyOf ts := by
  have hlabel : ∀ t : Tree, t.toCandidate.label = t.label := by
    rintro ⟨l, cs⟩
    rw [toCandidate]
    rfl
  match ts with
  | [] => rfl
  | [.node w []] => rfl
  | [.node l (c :: cs)] => rfl
  | t :: u :: ts =>
    simp [Candidate.bodyOf, bodyOf, Body.phrasal, toCandidates_eq_map, Function.comp_def, hlabel]

end Tree

/-! ## The production of a node -/

namespace Tree

/-- Whether a node has a single child, which is a word. -/
def isLexical (t : Tree) : Bool :=
  match t.children with
  | [c] => c.isTerminal
  | _ => false

/-- What a node with children is rewritten as. -/
def production (t : Tree) : Production :=
  .ofBody t.label (bodyOf t.children)

@[simp]
theorem lhs_production (t : Tree) : t.production.lhs = t.label :=
  rfl

/-- A node is rewritten as the labels of its children. -/
theorem rhs_bodyOf (ts : List Tree) : (bodyOf ts).rhs = ts.map label := by
  match ts with
  | [] => rfl
  | [.node w []] => rfl
  | [.node w (c :: cs)] => rfl
  | t :: u :: ts => simp [bodyOf, Body.phrasal]

@[simp]
theorem rhs_production (t : Tree) : t.production.rhs = t.childLabels :=
  rhs_bodyOf t.children

@[simp]
theorem lexical_production (t : Tree) : t.production.lexical = t.isLexical := by
  obtain ⟨l, cs⟩ := t
  match cs with
  | [] => rfl
  | [.node w []] => rfl
  | [.node w (c :: cs)] => rfl
  | t :: u :: ts => simp [production, Production.ofBody, bodyOf, Body.phrasal, isLexical]

mutual

/-- The productions of a tree are those of its nodes with children. -/
theorem productions_eq_map (t : Tree) :
    t.productions = (t.nodes.filter fun n => !n.isTerminal).map production := by
  match t with
  | .node l [] => rfl
  | .node l (c :: cs) =>
    have hinner : (!isTerminal (node l (c :: cs))) = true := rfl
    rw [productions, nodes, List.filter_cons, if_pos hinner, List.map_cons,
      productionsAll_eq_map (c :: cs)]
    rfl

theorem productionsAll_eq_map (ts : List Tree) :
    productionsAll ts = ((nodesAll ts).filter fun n => !n.isTerminal).map production := by
  match ts with
  | [] => rfl
  | t :: ts =>
    rw [productionsAll, nodesAll, List.filter_append, List.map_append, productions_eq_map t,
      productionsAll_eq_map ts]

end

end Tree

/-! ## Collecting productions -/

namespace Tree

mutual

/-- The nodes with children of a tree have its productions. -/
theorem map_production_inner (t : Tree) :
    t.toCandidate.inner.map Candidate.production = t.productions := by
  match t with
  | .node l [] => rfl
  | .node l (c :: cs) =>
    have hbody := bodyOf_toCandidates (c :: cs)
    have hchildren := map_production_innerAll (c :: cs)
    rw [toCandidates] at hbody hchildren
    rw [toCandidate, toCandidates, Candidate.inner_node, List.map_cons, hchildren, productions,
      ← hbody]
    rfl

theorem map_production_innerAll (ts : List Tree) :
    ((toCandidates ts).flatMap Candidate.inner).map Candidate.production = productionsAll ts := by
  match ts with
  | [] => rfl
  | t :: ts =>
    rw [toCandidates, List.flatMap_cons, List.map_append, map_production_inner t,
      map_production_innerAll ts, productionsAll]

end

/-- What is collected from a tree are its productions. -/
theorem eq_productions {t : Tree} {ps : List Production}
    (h : t.toCandidate.productions = .ok ps) : ps = t.productions := by
  rw [((Candidate.productions_eq_ok_iff _ ps).1 h).2, map_production_inner]

end Tree

namespace Candidate

mutual

/-- A candidate with nothing else in the place of nodes is a tree. -/
theorem exists_toCandidate_of_parts (c : Candidate) (h : ∀ d ∈ c.parts, ¬d.IsNoTree) :
    ∃ t : Tree, c = t.toCandidate := by
  match c with
  | .text s => exact absurd trivial (h _ (mem_parts_self _))
  | .other type shown => exact absurd trivial (h _ (mem_parts_self _))
  | .node l cs =>
    rw [parts, List.forall_mem_cons] at h
    obtain ⟨ts, rfl⟩ := exists_toCandidates_of_parts cs h.2
    exact ⟨.node l ts, by rw [Tree.toCandidate]⟩

theorem exists_toCandidates_of_parts (cs : List Candidate)
    (h : ∀ d ∈ partsAll cs, ¬d.IsNoTree) : ∃ ts, cs = Tree.toCandidates ts := by
  match cs with
  | [] => exact ⟨[], rfl⟩
  | c :: cs =>
    rw [partsAll, List.forall_mem_append] at h
    obtain ⟨t, rfl⟩ := exists_toCandidate_of_parts c h.1
    obtain ⟨ts, rfl⟩ := exists_toCandidates_of_parts cs h.2
    exact ⟨t :: ts, by rw [Tree.toCandidates]⟩

end

/-- Only trees have productions. -/
theorem exists_toCandidate {c : Candidate} {ps : List Production} (h : c.productions = .ok ps) :
    ∃ t : Tree, c = t.toCandidate := by
  have hsound := ((c.productions_eq_ok_iff ps).1 h).1
  match c with
  | .text s => exact absurd (.inl trivial) hsound
  | .other type shown => exact absurd (.inl trivial) hsound
  | .node l [] => exact ⟨.node l [], rfl⟩
  | .node l (c :: cs) =>
    refine exists_toCandidate_of_parts _ ?_
    intro d hd hnoTree
    refine hsound (.inr ⟨List.cons_ne_nil c cs, d, hd, ?_⟩)
    cases d with
    | text s => trivial
    | other type shown => trivial
    | node l' ds => cases hnoTree

end Candidate

/-! ## Productions with a single symbol -/

/-- A production rewrites its nonterminal as a single symbol that is not a word. -/
def Production.IsChain (p : Production) (s : String) : Prop :=
  p.lexical = false ∧ p.rhs = [s]

/-- Where a production of a list rewrites its nonterminal as a single symbol that is not a word, the
list has a production for this symbol. -/
def Production.ChainsEnd (ps : List Production) : Prop :=
  ∀ p ∈ ps, ∀ s, p.IsChain s → ∃ q ∈ ps, q.lhs = s

/-- Lists of productions in which this is so may be put together. -/
theorem Production.chainsEnd_flatMap {α : Type} {f : α → List Production} {xs : List α}
    (h : ∀ x ∈ xs, ChainsEnd (f x)) : ChainsEnd (xs.flatMap f) := by
  intro p hp s hchain
  obtain ⟨x, hx, hp⟩ := List.mem_flatMap.1 hp
  obtain ⟨q, hq, hlhs⟩ := h x hx p hp s hchain
  exact ⟨q, List.mem_flatMap.2 ⟨x, hx, hq⟩, hlhs⟩

namespace Tree

/-- A node with children has a production for its label. -/
theorem exists_lhs_eq {l : String} {cs : List Tree} (h : cs ≠ []) :
    ∃ q ∈ (node l cs).productions, q.lhs = l := by
  cases cs with
  | nil => exact absurd rfl h
  | cons c cs => exact ⟨_, List.mem_cons_self, rfl⟩

/-- A node that is rewritten as a single symbol other than a word has one child, which has children. -/
theorem eq_of_isChain {l s : String} {ts : List Tree}
    (h : (Production.ofBody l (bodyOf ts)).IsChain s) : ∃ cs, cs ≠ [] ∧ ts = [.node s cs] := by
  obtain ⟨hlexical, hrhs⟩ := h
  match ts with
  | [] => cases hrhs
  | [.node w []] => cases hlexical
  | [.node w (c :: cs)] =>
    obtain rfl : w = s := (List.cons.inj hrhs).1
    exact ⟨c :: cs, List.cons_ne_nil c cs, rfl⟩
  | t :: u :: ts => simp [Production.ofBody, bodyOf, Body.phrasal] at hrhs

mutual

/-- The productions of a tree lead on to words. -/
theorem chainsEnd_productions (t : Tree) : Production.ChainsEnd t.productions := by
  match t with
  | .node l [] => exact fun p hp => by cases hp
  | .node l (c :: cs) =>
    have hlater := chainsEnd_productionsAll (c :: cs)
    intro p hp s hchain
    rcases List.mem_cons.1 hp with rfl | hp
    · obtain ⟨ds, hds, heq⟩ := eq_of_isChain hchain
      obtain ⟨q, hq, hlhs⟩ := exists_lhs_eq (l := s) hds
      refine ⟨q, List.mem_cons_of_mem _ ?_, hlhs⟩
      rw [heq]
      exact List.mem_append_left _ hq
    · obtain ⟨q, hq, hlhs⟩ := hlater p hp s hchain
      exact ⟨q, List.mem_cons_of_mem _ hq, hlhs⟩

theorem chainsEnd_productionsAll (ts : List Tree) :
    Production.ChainsEnd (productionsAll ts) := by
  match ts with
  | [] => exact fun p hp => by cases hp
  | t :: ts =>
    intro p hp s hchain
    rcases List.mem_append.1 hp with hp | hp
    · obtain ⟨q, hq, hlhs⟩ := chainsEnd_productions t p hp s hchain
      exact ⟨q, List.mem_append_left _ hq, hlhs⟩
    · obtain ⟨q, hq, hlhs⟩ := chainsEnd_productionsAll ts p hp s hchain
      exact ⟨q, List.mem_append_right _ hq, hlhs⟩

end

/-- The symbols of the productions of a tree without empty labels are labels of the tree. -/
theorem all_of_mem_productions {P : String → Prop} {t : Tree} (hP : ∀ l ∈ t.labels, P l)
    (hne : ∀ l ∈ t.labels, l ≠ "") : ∀ p ∈ t.productions, p.All P := by
  obtain ⟨ps, hps, hall⟩ := t.exists_productions hP hne
  rw [eq_productions hps] at hall
  exact hall

end Tree
end TreebankGrammar
