import Mathlib.Data.List.Induction
import Mathlib.Data.List.Nodup
import TreebankGrammar.Proofs.Binarization.DerivationTree
import TreebankGrammar.Proofs.Binarization.Unfolding
import TreebankGrammar.Proofs.Number.Rounding

/-!
# Derivations before and after binarization

A derivation tree over binarized rules is restored by removing the nodes at which a new nonterminal
is expanded, so that the subtrees of such a node take its place, and by using each other rule as
the rule that it was made from.  Restoring is a bijection between the derivation trees of a symbol
of the grammar over the two lists of rules, and changes neither frontiers nor weights.

Main results:

- Theorem `Explains.restore_injective`: trees with the same root that are restored to the same are
  equal.
- Theorem `Explains.exists_restore_eq`: every derivation tree over the rules of the grammar is
  restored from one over the binarized rules.
- Theorem `Explains.exists_equiv`: restoring is a bijection between the trees of a symbol of the
  grammar.
- Theorem `Grammar.binarize_derivations`: binarization keeps the derivations of every symbol of the
  grammar, with their frontiers and weights.
-/

namespace TreebankGrammar

/-! ## Restoring trees -/

namespace DerivationTree

mutual

/-- The trees that stand for a tree when the nodes of new nonterminals are removed: `sourceOf` gives
the rule that a rule was made from, and none for the rule of a new nonterminal. -/
def restore (sourceOf : Rule → Option Rule) : DerivationTree → List DerivationTree
  | .leaf s => [.leaf s]
  | .node r cs =>
    match sourceOf r with
    | some source => [.node source (restoreAll sourceOf cs)]
    | none => restoreAll sourceOf cs

/-- The trees that stand for a sequence of trees. -/
def restoreAll (sourceOf : Rule → Option Rule) : List DerivationTree → List DerivationTree
  | [] => []
  | t :: ts => restore sourceOf t ++ restoreAll sourceOf ts

end

variable {sourceOf : Rule → Option Rule}

theorem restore_node_some {k r : Rule} (h : sourceOf k = some r) (cs : List DerivationTree) :
    restore sourceOf (.node k cs) = [.node r (restoreAll sourceOf cs)] := by
  simp [restore, h]

theorem restore_node_none {k : Rule} (h : sourceOf k = none) (cs : List DerivationTree) :
    restore sourceOf (.node k cs) = restoreAll sourceOf cs := by
  simp [restore, h]

@[simp]
theorem restoreAll_append (ts us : List DerivationTree) :
    restoreAll sourceOf (ts ++ us) = restoreAll sourceOf ts ++ restoreAll sourceOf us := by
  induction ts with
  | nil => rfl
  | cons t ts ih => simp [restoreAll, ih]

/-- Restoring a sequence of trees restores each of them. -/
theorem mem_restoreAll {u : DerivationTree} {ts : List DerivationTree}
    (h : u ∈ restoreAll sourceOf ts) : ∃ t ∈ ts, u ∈ restore sourceOf t := by
  induction ts with
  | nil => simp [restoreAll] at h
  | cons t ts ih =>
    rw [restoreAll, List.mem_append] at h
    rcases h with h | h
    · exact ⟨t, by simp, h⟩
    · rcases ih h with ⟨t', ht', hu⟩
      exact ⟨t', by simp [ht'], hu⟩

/-- The roots of restored trees, when the roots of each restored tree are known. -/
theorem map_root_restoreAll {expand : String → List String} {ts : List DerivationTree}
    (h : ∀ t ∈ ts, (restore sourceOf t).map root = expand t.root) :
    (restoreAll sourceOf ts).map root = (ts.map root).flatMap expand := by
  induction ts with
  | nil => rfl
  | cons t ts ih =>
    have ht : (restore sourceOf t).map root = expand t.root := h t (by simp)
    have hts := ih fun u hu => h u (by simp [hu])
    simp [restoreAll, ht, hts]

mutual

/-- Restoring keeps the frontier. -/
theorem frontiers_restore (sourceOf : Rule → Option Rule) (t : DerivationTree) :
    frontiers (restore sourceOf t) = t.frontier := by
  cases t with
  | leaf s => rfl
  | node r cs =>
    cases h : sourceOf r with
    | some source => simp [restore_node_some h, frontiers, frontier, frontiers_restoreAll]
    | none => simp [restore_node_none h, frontier, frontiers_restoreAll]

/-- Restoring a sequence of trees keeps the frontier. -/
theorem frontiers_restoreAll (sourceOf : Rule → Option Rule) (ts : List DerivationTree) :
    frontiers (restoreAll sourceOf ts) = frontiers ts := by
  cases ts with
  | nil => rfl
  | cons t ts =>
    rw [restoreAll, frontiers_append, frontiers_restore, frontiers_restoreAll, frontiers]

end

end DerivationTree

/-- The rule of a list that a binarized rule was made from. -/
def sourceRule? (expand : String → List String) (source : List Rule) (k : Rule) : Option Rule :=
  source.find? fun r => r.parts = k.expanded expand

namespace Pass
namespace Explains

open DerivationTree

variable {symbols : List String} {source out : List Rule} {p : Pass}
  {expand : String → List String}

/-! ## The rule that a rule was made from -/

/-- Every rule read has been made into a rule for the same symbol. -/
theorem exists_kept (h : Explains symbols source p out expand) {r : Rule} (hr : r ∈ source) :
    ∃ k ∈ out, k.lhs ∈ symbols ∧ k.expanded expand = r.parts := by
  have hmem : r.parts ∈ source.map Rule.parts := List.mem_map.2 ⟨r, hr, rfl⟩
  rw [← h.kept] at hmem
  rcases List.mem_map.1 hmem with ⟨k, hk, hparts⟩
  rcases List.mem_filter.1 hk with ⟨hout, hlhs⟩
  exact ⟨k, hout, by simpa using hlhs, hparts⟩

theorem sourceRule?_eq_some {k r : Rule} (hr : r ∈ source) (hparts : k.expanded expand = r.parts) :
    sourceRule? expand source k = some r := by
  unfold sourceRule?
  cases hfind : source.find? fun r => r.parts = k.expanded expand with
  | none =>
    rw [List.find?_eq_none] at hfind
    simpa [hparts] using hfind r hr
  | some r' =>
    have hparts' : r'.parts = k.expanded expand := by simpa using List.find?_some hfind
    rw [Rule.parts_injective (hparts'.trans hparts)]

/-- A rule for a symbol of the grammar was made from a rule read. -/
theorem exists_sourceRule? (h : Explains symbols source p out expand) {k : Rule} (hk : k ∈ out)
    (hlhs : k.lhs ∈ symbols) :
    ∃ r ∈ source, k.expanded expand = r.parts ∧ sourceRule? expand source k = some r := by
  have hmem : k.expanded expand ∈ source.map Rule.parts := by
    rw [← h.kept]
    exact List.mem_map.2 ⟨k, List.mem_filter.2 ⟨hk, by simpa using hlhs⟩, rfl⟩
  rcases List.mem_map.1 hmem with ⟨r, hr, hparts⟩
  exact ⟨r, hr, hparts.symm, sourceRule?_eq_some hr hparts.symm⟩

/-- The rule of a new nonterminal was made from no rule. -/
theorem sourceRule?_eq_none (h : Explains symbols source p out expand) {d : Rule}
    (hlhs : d.lhs ∈ p.synthetic) : sourceRule? expand source d = none := by
  rw [sourceRule?, List.find?_eq_none]
  intro r hr hparts
  have hparts' : r.parts = d.expanded expand := by simpa using hparts
  rcases h.exists_kept hr with ⟨k, -, hk, hkeep⟩
  have heq : k.lhs = d.lhs := congrArg Prod.fst (hkeep.trans hparts')
  exact h.regular.not_mem_symbols d.lhs hlhs (heq ▸ hk)

/-- A node of a new nonterminal is removed. -/
theorem restore_node_of_not_mem (h : Explains symbols source p out expand) {k : Rule}
    (hk : k ∈ out) (hlhs : k.lhs ∉ symbols) (cs : List DerivationTree) :
    restore (sourceRule? expand source) (.node k cs) =
      restoreAll (sourceRule? expand source) cs := by
  apply restore_node_none
  apply h.sourceRule?_eq_none
  exact (h.lhs_mem_synthetic_iff hk).2 hlhs

/-- At a node of a symbol of the grammar the rule that its rule was made from is used. -/
theorem exists_restore_node (h : Explains symbols source p out expand) {k : Rule} (hk : k ∈ out)
    (hlhs : k.lhs ∈ symbols) :
    ∃ r ∈ source, k.expanded expand = r.parts ∧ ∀ cs : List DerivationTree,
      restore (sourceRule? expand source) (.node k cs) =
        [.node r (restoreAll (sourceRule? expand source) cs)] := by
  rcases h.exists_sourceRule? hk hlhs with ⟨r, hr, hparts, hsource⟩
  exact ⟨r, hr, hparts, restore_node_some hsource⟩

/-- Different rules for symbols of the grammar were made from different rules. -/
theorem kept_injective (h : Explains symbols source p out expand)
    (hsource : (source.map Rule.toProduction).Nodup) {k k' : Rule} (hk : k ∈ out) (hk' : k' ∈ out)
    (hlhs : k.lhs ∈ symbols) (hlhs' : k'.lhs ∈ symbols)
    (heq : k.expanded expand = k'.expanded expand) : k = k' := by
  have hnodup : ((out.filter fun r => r.lhs ∈ symbols).map (Rule.expanded expand)).Nodup := by
    rw [h.kept]
    exact (List.Nodup.of_map _ hsource).map Rule.parts_injective
  refine List.inj_on_of_nodup_map hnodup ?_ ?_ heq
  · exact List.mem_filter.2 ⟨hk, by simpa using hlhs⟩
  · exact List.mem_filter.2 ⟨hk', by simpa using hlhs'⟩

/-! ## Restored trees -/

/-- The roots of the trees that a tree is restored to are what its root stands for. -/
theorem map_root_restore (h : Explains symbols source p out expand) {t : DerivationTree}
    (ht : t.Valid out symbols) :
    (restore (sourceRule? expand source) t).map root = expand t.root := by
  induction ht with
  | leaf hs => simp [restore, h.expand_of_mem_symbols hs]
  | @node k cs hk hroots hcs ih =>
    have hchildren := map_root_restoreAll ih
    by_cases hlhs : k.lhs ∈ symbols
    · rcases h.exists_restore_node hk hlhs with ⟨r, hr, hparts, hrestore⟩
      have heq : k.lhs = r.lhs := congrArg Prod.fst hparts
      rw [hrestore, root_node, h.expand_of_mem_symbols hlhs]
      simp [heq]
    · have hnew : k.lhs ∈ p.synthetic := (h.lhs_mem_synthetic_iff hk).2 hlhs
      rw [h.restore_node_of_not_mem hk hlhs, hchildren, hroots, root_node, h.expand_lhs hk hnew]

/-- The trees that a tree is restored to are derivation trees over the rules read. -/
theorem valid_restore (h : Explains symbols source p out expand) {t : DerivationTree}
    (ht : t.Valid out symbols) :
    ∀ u ∈ restore (sourceRule? expand source) t, u.Valid source symbols := by
  induction ht with
  | leaf hs =>
    intro u hu
    rw [restore, List.mem_singleton] at hu
    rw [hu]
    exact .leaf hs
  | @node k cs hk hroots hcs ih =>
    have hchildren : ∀ u ∈ restoreAll (sourceRule? expand source) cs, u.Valid source symbols := by
      intro u hu
      rcases mem_restoreAll hu with ⟨c, hc, hu⟩
      exact ih c hc u hu
    intro u hu
    by_cases hlhs : k.lhs ∈ symbols
    · rcases h.exists_restore_node hk hlhs with ⟨r, hr, hparts, hrestore⟩
      rw [hrestore, List.mem_singleton] at hu
      rw [hu]
      have hrhs : k.rhs.flatMap expand = r.rhs := congrArg (fun parts => parts.2.1) hparts
      refine .node hr ?_ hchildren
      rw [map_root_restoreAll fun c hc => h.map_root_restore (hcs c hc), hroots, hrhs]
    · rw [h.restore_node_of_not_mem hk hlhs] at hu
      exact hchildren u hu

/-- Restoring keeps the product of the weights: the rules of new nonterminals have weight one. -/
theorem ruleProduct_restore (h : Explains symbols source p out expand) {M : Type} [CommMonoid M]
    (value : Weight → M) (hone : value .one = 1) {t : DerivationTree} (ht : t.Valid out symbols) :
    ruleProduct value (rulesUsedAll (restore (sourceRule? expand source) t)) = t.weight value := by
  induction ht with
  | leaf hs => rfl
  | @node k cs hk hroots hcs ih =>
    have hchildren : ruleProduct value (rulesUsedAll (restoreAll (sourceRule? expand source) cs)) =
        ruleProduct value (rulesUsedAll cs) := by
      clear hroots hcs
      induction cs with
      | nil => rfl
      | cons c cs ihcs =>
        have hc : ruleProduct value (rulesUsedAll (restore (sourceRule? expand source) c)) =
            c.weight value := ih c (by simp)
        have hrest := ihcs fun c' hc' => ih c' (by simp [hc'])
        rw [restoreAll, rulesUsedAll_append, ruleProduct_append, hc, hrest, rulesUsedAll,
          ruleProduct_append, weight]
    by_cases hlhs : k.lhs ∈ symbols
    · rcases h.exists_restore_node hk hlhs with ⟨r, hr, hparts, hrestore⟩
      have hweight : k.weight = r.weight := congrArg (fun parts => parts.2.2.2) hparts
      simp [hrestore, rulesUsedAll, rulesUsed, weight, hchildren, hweight]
    · have hnew : k.lhs ∈ p.synthetic := (h.lhs_mem_synthetic_iff hk).2 hlhs
      rcases h.definition hk hnew with ⟨left, right, heq, -⟩
      have hweight : k.weight = .one := congrArg Rule.weight heq
      simp [h.restore_node_of_not_mem hk hlhs, rulesUsed, weight, hchildren, hweight, hone]

/-! ## Restoring is injective -/

/-- Sequences of trees with the same roots that are restored to the same are equal when this holds
of their members: what a tree is restored to is as long as what its root stands for. -/
theorem restoreAll_injective (h : Explains symbols source p out expand)
    {ts us : List DerivationTree} (hts : ∀ t ∈ ts, t.Valid out symbols)
    (hus : ∀ u ∈ us, u.Valid out symbols)
    (hmembers : ∀ t ∈ ts, ∀ u : DerivationTree, u.Valid out symbols → t.root = u.root →
      restore (sourceRule? expand source) t = restore (sourceRule? expand source) u → t = u)
    (hroots : ts.map root = us.map root)
    (heq : restoreAll (sourceRule? expand source) ts =
      restoreAll (sourceRule? expand source) us) : ts = us := by
  induction ts generalizing us with
  | nil =>
    cases us with
    | nil => rfl
    | cons u us => simp at hroots
  | cons t ts ih =>
    cases us with
    | nil => simp at hroots
    | cons u us =>
      simp only [List.map_cons, List.cons.injEq] at hroots
      have ht : t.Valid out symbols := hts t (by simp)
      have hu : u.Valid out symbols := hus u (by simp)
      have hlength : (restore (sourceRule? expand source) t).length =
          (restore (sourceRule? expand source) u).length := by
        rw [← List.length_map root, ← List.length_map root, h.map_root_restore ht,
          h.map_root_restore hu, hroots.1]
      rw [restoreAll, restoreAll] at heq
      rcases List.append_inj heq hlength with ⟨hhead, htail⟩
      have hfirst : t = u := hmembers t (by simp) u hu hroots.1 hhead
      have hrest : ts = us :=
        ih (fun t' ht' => hts t' (by simp [ht'])) (fun u' hu' => hus u' (by simp [hu']))
          (fun t' ht' => hmembers t' (by simp [ht'])) hroots.2 htail
      rw [hfirst, hrest]

/-- Trees with the same root that are restored to the same are equal. -/
theorem restore_injective (h : Explains symbols source p out expand)
    (hsource : (source.map Rule.toProduction).Nodup) {t u : DerivationTree}
    (ht : t.Valid out symbols) (hu : u.Valid out symbols) (hroot : t.root = u.root)
    (heq : restore (sourceRule? expand source) t = restore (sourceRule? expand source) u) :
    t = u := by
  induction ht generalizing u with
  | @leaf s hs =>
    cases hu with
    | leaf hs' => exact congrArg leaf hroot
    | @node k cs hk hroots hcs =>
      rw [root_leaf, root_node] at hroot
      have hlhs : k.lhs ∈ symbols := hroot ▸ hs
      rcases h.exists_restore_node hk hlhs with ⟨r, -, -, hrestore⟩
      rw [hrestore] at heq
      simp [restore] at heq
  | @node k cs hk hroots hcs ih =>
    by_cases hlhs : k.lhs ∈ symbols
    · rcases h.exists_restore_node hk hlhs with ⟨r, -, hparts, hrestore⟩
      cases hu with
      | leaf hs =>
        rw [hrestore] at heq
        simp [restore] at heq
      | @node k' cs' hk' hroots' hcs' =>
        rw [root_node, root_node] at hroot
        have hlhs' : k'.lhs ∈ symbols := hroot ▸ hlhs
        rcases h.exists_restore_node hk' hlhs' with ⟨r', -, hparts', hrestore'⟩
        simp only [hrestore, hrestore', List.cons.injEq, node.injEq, and_true] at heq
        have hsame : k = k' := by
          refine h.kept_injective hsource hk hk' hlhs hlhs' ?_
          rw [hparts, hparts', heq.1]
        have hchildren : cs = cs' := by
          refine h.restoreAll_injective hcs hcs' (fun c hc u hu => ih c hc hu) ?_ heq.2
          rw [hroots, hroots', hsame]
        rw [hsame, hchildren]
    · have hnew : k.lhs ∈ p.synthetic := (h.lhs_mem_synthetic_iff hk).2 hlhs
      cases hu with
      | leaf hs =>
        rw [root_leaf, root_node] at hroot
        exact absurd (hroot ▸ hs) hlhs
      | @node k' cs' hk' hroots' hcs' =>
        have hsame : k = k' := h.eq_of_lhs_eq hk hk' hnew hroot
        rw [h.restore_node_of_not_mem hk hlhs, h.restore_node_of_not_mem hk' (hsame ▸ hlhs)] at heq
        have hchildren : cs = cs' := by
          refine h.restoreAll_injective hcs hcs' (fun c hc u hu => ih c hc hu) ?_ heq
          rw [hroots, hroots', hsame]
        rw [hsame, hchildren]

/-! ## Restoring is surjective -/

/-- A sequence of trees whose roots are what a known symbol stands for is put together to one tree
of this symbol. -/
theorem exists_assembled (h : Explains symbols source p out expand) {s : String}
    {ts : List DerivationTree} (hs : p.Knows symbols s) (hts : ∀ t ∈ ts, t.Valid out symbols)
    (hroots : ts.map root = expand s) :
    ∃ t : DerivationTree, t.Valid out symbols ∧ t.root = s ∧
      restore (sourceRule? expand source) t = restoreAll (sourceRule? expand source) ts := by
  -- What a new nonterminal stands for ends with the second symbol of its rule, so its last tree is
  -- the second subtree and the trees before it make the first one.
  induction ts using List.reverseRecOn generalizing s with
  | nil => exact absurd hroots.symm (h.expand_ne_nil s)
  | append_singleton ts t ih =>
    have ht : t.Valid out symbols := hts t (by simp)
    rw [List.map_append, List.map_singleton] at hroots
    rcases hs with hs | hs
    · rw [h.expand_of_mem_symbols hs] at hroots
      have hlength : ts.length + 1 = 1 := by simpa using congrArg List.length hroots
      have hnil : ts = [] := List.eq_nil_of_length_eq_zero (by omega)
      subst hnil
      exact ⟨t, ht, by simpa using hroots, by simp [restoreAll]⟩
    · rcases h.exists_rule hs with ⟨d, hd, rfl⟩
      rcases h.definition hd hs with ⟨left, right, heq, -, hexpand⟩
      have hrhs : d.rhs = [left, right] := congrArg (fun r : Rule => r.rhs) heq
      rw [hexpand] at hroots
      rcases List.append_inj' hroots rfl with ⟨hleft, hright⟩
      have hknown : p.Knows symbols left := h.rhs_known d hd left (by simp [hrhs])
      rcases ih hknown (fun u hu => hts u (by simp [hu])) hleft with ⟨u, hu, huroot, hrestore⟩
      refine ⟨.node d [u, t], .node hd ?_ ?_, rfl, ?_⟩
      · rw [hrhs, List.map_cons, huroot, List.map_singleton, hright]
      · intro c hc
        simp only [List.mem_cons, List.not_mem_nil, or_false] at hc
        rcases hc with rfl | rfl
        · exact hu
        · exact ht
      · rw [restore_node_none (h.sourceRule?_eq_none hs), restoreAll, hrestore, restoreAll_append]

/-- A sequence of trees whose roots are what known symbols stand for is put together to one tree for
each of these symbols. -/
theorem exists_assembledAll (h : Explains symbols source p out expand) {xs : List String}
    {ts : List DerivationTree} (hxs : ∀ s ∈ xs, p.Knows symbols s)
    (hts : ∀ t ∈ ts, t.Valid out symbols) (hroots : ts.map root = xs.flatMap expand) :
    ∃ cs : List DerivationTree, (∀ c ∈ cs, c.Valid out symbols) ∧ cs.map root = xs ∧
      restoreAll (sourceRule? expand source) cs = restoreAll (sourceRule? expand source) ts := by
  induction xs generalizing ts with
  | nil =>
    have hnil : ts = [] := List.map_eq_nil_iff.1 hroots
    exact ⟨[], by simp, rfl, by rw [hnil]⟩
  | cons s xs ih =>
    rw [List.flatMap_cons] at hroots
    rcases List.map_eq_append_iff.1 hroots with ⟨first, rest, rfl, hfirst, hrest⟩
    rcases h.exists_assembled (hxs s (by simp)) (fun t ht => hts t (by simp [ht])) hfirst with
      ⟨c, hc, hcroot, hcrestore⟩
    rcases ih (fun s' hs' => hxs s' (by simp [hs'])) (fun t ht => hts t (by simp [ht])) hrest with
      ⟨cs, hcs, hcsroots, hcsrestore⟩
    refine ⟨c :: cs, ?_, by simp [hcroot, hcsroots], ?_⟩
    · intro c' hc'
      rcases List.mem_cons.1 hc' with rfl | hc'
      · exact hc
      · exact hcs c' hc'
    · rw [restoreAll, hcrestore, hcsrestore, restoreAll_append]

/-- Every derivation tree over the rules read is restored from one over the rules written. -/
theorem exists_restore_eq (h : Explains symbols source p out expand) {t : DerivationTree}
    (ht : t.Valid source symbols) :
    ∃ u : DerivationTree, u.Valid out symbols ∧ u.root = t.root ∧
      restore (sourceRule? expand source) u = [t] := by
  induction ht with
  | @leaf s hs => exact ⟨.leaf s, .leaf hs, rfl, rfl⟩
  | @node r cs hr hroots hcs ih =>
    have hchildren : ∃ us : List DerivationTree, (∀ u ∈ us, u.Valid out symbols) ∧
        us.map root = cs.map root ∧ restoreAll (sourceRule? expand source) us = cs := by
      clear hroots hcs
      induction cs with
      | nil => exact ⟨[], by simp, rfl, rfl⟩
      | cons c cs ihcs =>
        rcases ih c (by simp) with ⟨u, hu, huroot, hurestore⟩
        rcases ihcs fun c' hc' => ih c' (by simp [hc']) with ⟨us, hus, husroots, husrestore⟩
        refine ⟨u :: us, ?_, by simp [huroot, husroots], ?_⟩
        · intro u' hu'
          rcases List.mem_cons.1 hu' with rfl | hu'
          · exact hu
          · exact hus u' hu'
        · rw [restoreAll, hurestore, husrestore, List.singleton_append]
    rcases hchildren with ⟨us, hus, husroots, husrestore⟩
    rcases h.exists_kept hr with ⟨k, hk, hlhs, hparts⟩
    have hrhs : k.rhs.flatMap expand = r.rhs := congrArg (fun parts => parts.2.1) hparts
    have hstands : us.map root = k.rhs.flatMap expand := by rw [husroots, hroots, hrhs]
    rcases h.exists_assembledAll (h.rhs_known k hk) hus hstands with
      ⟨ks, hks, hksroots, hksrestore⟩
    refine ⟨.node k ks, .node hk hksroots hks, congrArg Prod.fst hparts, ?_⟩
    rw [restore_node_some (sourceRule?_eq_some hr hparts), hksrestore, husrestore]

/-! ## The bijection -/

/-- A tree of a symbol of the grammar is restored to one tree of the same symbol. -/
theorem exists_restore_eq_singleton (h : Explains symbols source p out expand) {t : DerivationTree}
    (ht : t.Valid out symbols) (hroot : t.root ∈ symbols) :
    ∃ u : DerivationTree, restore (sourceRule? expand source) t = [u] ∧ u.Valid source symbols ∧
      u.root = t.root := by
  have hroots : (restore (sourceRule? expand source) t).map root = [t.root] := by
    rw [h.map_root_restore ht, h.expand_of_mem_symbols hroot]
  rcases List.map_eq_singleton_iff.1 hroots with ⟨u, hu, huroot⟩
  exact ⟨u, hu, h.valid_restore ht u (by simp [hu]), huroot⟩

/-- Restoring gives a bijection between the derivation trees of a symbol of the grammar. -/
theorem exists_equiv (h : Explains symbols source p out expand)
    (hsource : (source.map Rule.toProduction).Nodup) {A : String} (hA : A ∈ symbols) :
    ∃ e : Derivations source symbols A ≃ Derivations out symbols A,
      ∀ t, restore (sourceRule? expand source) (e t).1 = [t.1] := by
  have hexists : ∀ t : Derivations source symbols A, ∃ u : Derivations out symbols A,
      restore (sourceRule? expand source) u.1 = [t.1] := by
    rintro ⟨t, ht, rfl⟩
    rcases h.exists_restore_eq ht with ⟨u, hu, huroot, hrestore⟩
    exact ⟨⟨u, hu, huroot⟩, hrestore⟩
  choose f hf using hexists
  have hbijective : Function.Bijective f := by
    constructor
    · intro t t' heq
      have hsame : [t.1] = [t'.1] := by rw [← hf t, ← hf t', heq]
      exact Subtype.ext (List.singleton_inj.1 hsame)
    · rintro ⟨u, hu, rfl⟩
      rcases h.exists_restore_eq_singleton hu hA with ⟨t, hrestore, ht, htroot⟩
      let t' : Derivations source symbols u.root := ⟨t, ht, htroot⟩
      refine ⟨t', Subtype.ext ?_⟩
      refine h.restore_injective hsource (f t').2.1 hu (f t').2.2 ?_
      rw [hf t', hrestore]
  exact ⟨Equiv.ofBijective f hbijective, hf⟩

end Explains
end Pass

/-- Binarization keeps the derivations of every symbol of the grammar: no rule stands twice, and
there is a bijection between the derivation trees before and after that keeps the symbols at the
leaves and the product of the weights, in whichever numbers weights are taken as long as one is
the unit. -/
theorem Grammar.binarize_derivations (g : Grammar) (strategy : Strategy) (stem : String) :
    ∃ out, (g.binarize strategy stem).result = .ok out ∧
      (g.rules.map Rule.toProduction).Nodup ∧ (out.map Rule.toProduction).Nodup ∧
      ∀ A ∈ g.symbols, ∃ e : Derivations g.rules g.symbols A ≃ Derivations out g.symbols A,
        ∀ t, (e t).1.frontier = t.1.frontier ∧
          ∀ (M : Type) [CommMonoid M] (value : Weight → M), value .one = 1 →
            (e t).1.weight value = t.1.weight value := by
  rcases g.exists_explains strategy stem with ⟨out, expand, hresult, h⟩
  have hsource : (g.rules.map Rule.toProduction).Nodup := g.nodup_productions
  refine ⟨out, hresult, hsource, h.nodup_productions hsource, ?_⟩
  intro A hA
  rcases h.exists_equiv hsource hA with ⟨e, he⟩
  refine ⟨e, ?_⟩
  intro t
  constructor
  · have hfrontier := DerivationTree.frontiers_restore (sourceRule? expand g.rules) (e t).1
    rw [he t] at hfrontier
    simpa [DerivationTree.frontiers] using hfrontier.symm
  · intro M _ value hone
    have hweight := h.ruleProduct_restore value hone (e t).2.1
    rw [he t] at hweight
    simpa [DerivationTree.rulesUsedAll, DerivationTree.weight] using hweight.symm

/-- Binarization keeps the derivations of a symbol that rules lead back to, with their exact
weights. -/
theorem Grammar.binarize_derivations_nested :
    ∃ out, (nested.binarize .shared "X").result = .ok out ∧
      ∃ e : Derivations nested.rules nested.symbols "S" ≃ Derivations out nested.symbols "S",
        ∀ t, (e t).1.frontier = t.1.frontier ∧
          (e t).1.weight Binary64.toRat = t.1.weight Binary64.toRat := by
  rcases nested.binarize_derivations .shared "X" with ⟨out, hresult, -, -, h⟩
  rcases h "S" (mem_symbols_of_mem_nonterminals mem_nonterminals_nested) with ⟨e, he⟩
  refine ⟨out, hresult, e, ?_⟩
  intro t
  rcases he t with ⟨hfrontier, hweight⟩
  exact ⟨hfrontier, hweight ℚ Binary64.toRat Binary64.toRat_one⟩

end TreebankGrammar
