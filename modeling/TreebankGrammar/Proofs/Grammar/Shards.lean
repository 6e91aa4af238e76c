import Mathlib.Data.List.FinRange
import TreebankGrammar.Proofs.Grammar.Merging

/-!
# Merging shards of a treebank

The trees of a treebank may be counted by several grammars, which are merged afterwards.  When each of
them goes once into a common result, this result holds the same as one grammar that counted all
trees, however the trees were distributed and in whatever order and grouping the grammars were merged.

Main definitions:

- `Grammar.mergeAll`: merges grammars of a family into each other, one step after the other.
- `Grammar.shardsIn`: which shards have gone into a grammar of the family after the same steps.

Main results:

- Theorem `mergeAll_of_merge`: what merging does to two grammars, merging steps do to all.
- Theorem `hasCounted_mergeAll`: what the grammars of a family have counted after merging steps.
- Theorem `mergeAll_sameCounts`: merging shards gives the counts and weights of a single grammar.
-/

namespace TreebankGrammar
namespace Grammar

/-! ## Merging steps -/

section Steps

variable {n : Nat}

/-- Merges grammars of a family, each step the grammar at the second position into the grammar at the
first. -/
def mergeAll (grammars : Fin n → Grammar) : List (Fin n × Fin n) → Except Error (Fin n → Grammar)
  | [] => .ok grammars
  | (target, source) :: rest =>
    match (grammars target).merge (grammars source) with
    | .error e => .error e
    | .ok merged => mergeAll (Function.update grammars target merged) rest

/-- The shards that have gone into each grammar of a family after merging steps, given those that
have gone into it before. -/
def shardsAfter (shards : Fin n → List (Fin n)) : List (Fin n × Fin n) → Fin n → List (Fin n)
  | [] => shards
  | (target, source) :: rest =>
    shardsAfter (Function.update shards target (shards target ++ shards source)) rest

/-- The shards that have gone into each grammar of a family after merging steps, when each grammar is
a shard before. -/
def shardsIn (steps : List (Fin n × Fin n)) : Fin n → List (Fin n) :=
  shardsAfter (fun i => [i]) steps

/-- When merging goes well on grammars that stand for lists and appends these lists, merging steps go
well, and each grammar stands for the lists of the shards that have gone into it. -/
theorem mergeAll_of_merge {Stands : Grammar → List Production → Prop}
    (hmerge : ∀ {g other : Grammar} {log log' : List Production}, Stands g log →
      Stands other log' → ∃ merged, g.merge other = .ok merged ∧ Stands merged (log ++ log'))
    {logs : Fin n → List Production} {grammars : Fin n → Grammar} {shards : Fin n → List (Fin n)}
    (h : ∀ i, Stands (grammars i) ((shards i).flatMap logs)) (steps : List (Fin n × Fin n)) :
    ∃ merged, mergeAll grammars steps = .ok merged ∧
      ∀ i, Stands (merged i) ((shardsAfter shards steps i).flatMap logs) := by
  induction steps generalizing grammars shards with
  | nil => exact ⟨grammars, rfl, h⟩
  | cons step rest ih =>
    obtain ⟨target, source⟩ := step
    obtain ⟨sum, hrun, hsum⟩ := hmerge (h target) (h source)
    rw [← List.flatMap_append] at hsum
    have hnext : ∀ i, Stands (Function.update grammars target sum i)
        ((Function.update shards target (shards target ++ shards source) i).flatMap logs) := by
      intro i
      by_cases hi : i = target
      · subst hi
        rw [Function.update_self, Function.update_self]
        exact hsum
      · rw [Function.update_of_ne hi, Function.update_of_ne hi]
        exact h i
    rw [mergeAll, hrun, shardsAfter]
    exact ih hnext

/-- Merging steps succeed on open grammars, and the productions of each shard have been counted by
those grammars into which the shard has gone. -/
theorem hasCounted_mergeAll {logs : Fin n → List Production} {grammars : Fin n → Grammar}
    {shards : Fin n → List (Fin n)} (h : ∀ i, (grammars i).HasCounted ((shards i).flatMap logs))
    (steps : List (Fin n × Fin n)) :
    ∃ merged, mergeAll grammars steps = .ok merged ∧
      ∀ i, (merged i).HasCounted ((shardsAfter shards steps i).flatMap logs) :=
  mergeAll_of_merge HasCounted.merge h steps

/-- The trees of a treebank are counted by several grammars, in any distribution and order, and the
grammars are merged, in any order and grouping, so that each of them goes once into a common
result.  Then all counting and merging succeeds, the result holds the same counts as one grammar
that counts all trees, and after both have been estimated they give the same weights. -/
theorem mergeAll_sameCounts {trees : List Candidate} (htrees : ∀ c ∈ trees, c.WellFormed)
    {shards : Fin n → List Candidate} (hshards : (List.ofFn shards).flatten.Perm trees)
    {steps : List (Fin n × Fin n)} {result : Fin n}
    (hresult : (shardsIn steps result).Perm (List.finRange n)) :
    (∀ i, (empty.countTrees (shards i)).result = .ok (shards i).length) ∧
      (empty.countTrees trees).result = .ok trees.length ∧
      ∃ merged, mergeAll (fun i => (empty.countTrees (shards i)).grammar) steps = .ok merged ∧
        (merged result).SameCounts (empty.countTrees trees).grammar ∧
        (merged result).estimate.result = .ok () ∧
        (empty.countTrees trees).grammar.estimate.result = .ok () ∧
        ∀ lhs rhs flag, (merged result).estimate.grammar.weight lhs rhs (some flag) =
          (empty.countTrees trees).grammar.estimate.grammar.weight lhs rhs (some flag) := by
  have hpart : ∀ i, ∀ c ∈ shards i, c.WellFormed := fun i c hc =>
    htrees c (hshards.mem_iff.1 (List.mem_flatten.2 ⟨_, List.mem_ofFn.2 ⟨i, rfl⟩, hc⟩))
  obtain ⟨hone, hall⟩ := hasCounted_countTrees htrees
  have hstart : ∀ i, (empty.countTrees (shards i)).grammar.HasCounted
      ([i].flatMap fun i => (shards i).flatMap Candidate.productionList) := by
    intro i
    rw [List.flatMap_singleton]
    exact (hasCounted_countTrees (hpart i)).2
  obtain ⟨merged, hmerge, hcounted⟩ := hasCounted_mergeAll hstart steps
  -- The result has counted the productions of all trees, in some order.
  have hlog : ((shardsIn steps result).flatMap fun i =>
      (shards i).flatMap Candidate.productionList).Perm (trees.flatMap Candidate.productionList) := by
    have hflatten : (List.finRange n).flatMap shards = (List.ofFn shards).flatten := by
      rw [List.flatMap_def, List.ofFn_eq_map]
    refine (hresult.flatMap_right _).trans ?_
    rw [← List.flatMap_assoc, hflatten]
    exact hshards.flatMap_right _
  have hsame := (hcounted result).sameCounts hall hlog
  refine ⟨fun i => (hasCounted_countTrees (hpart i)).1, hone, merged, hmerge, hsame,
    (hcounted result).consistent.estimate_result, hall.consistent.estimate_result, ?_⟩
  exact hsame.weight_estimate (hcounted result).consistent hall.consistent

end Steps

/-! ## Three shards -/

/-- A tree with a rule that has three symbols on the right. -/
def wideTree : Candidate :=
  .node "S" [.node "A" [.node "a" []], .node "B" [.node "b" []], .node "A" [.node "a" []]]

/-- A tree with a word that is also a nonterminal. -/
def clashTree : Candidate :=
  .node "S" [.node "A" [.node "S" []]]

/-- Three grammars: the first one counts two trees, the second one nothing. -/
def threeShards (i : Fin 3) : List Candidate :=
  match i with
  | 0 => [clashTree, wideTree]
  | 1 => []
  | 2 => [wideTree]

/-- The third grammar is merged into the second one, and this one into the first.  The first one then
has the counts of all three trees. -/
theorem mergeAll_threeShards :
    ∃ merged, mergeAll (fun i => (empty.countTrees (threeShards i)).grammar) [(1, 2), (0, 1)] =
        .ok merged ∧
      (merged 0).SameCounts (empty.countTrees [wideTree, wideTree, clashTree]).grammar ∧
      (merged 0).symbolCounts.get? "A" = some 5 ∧
      (merged 0).tally? (.ofBody "A" (.ofWord "a")) = some ⟨4, .zero⟩ ∧
      (merged 0).tally? (.phrasal "S" ["A", "B", "A"]) = some ⟨2, .zero⟩ ∧
      (merged 0).estimate.result = .ok () ∧
      (merged 0).estimate.grammar.weight "A" ["S"] (some true) =
        (empty.countTrees [wideTree, wideTree, clashTree]).grammar.estimate.grammar.weight
          "A" ["S"] (some true) := by
  have hwide : wideTree.WellFormed :=
    ⟨[.phrasal "S" ["A", "B", "A"], .ofBody "A" (.ofWord "a"), .ofBody "B" (.ofWord "b"),
      .ofBody "A" (.ofWord "a")], by decide +kernel⟩
  have hclash : clashTree.WellFormed :=
    ⟨[.phrasal "S" ["A"], .ofBody "A" (.ofWord "S")], by decide +kernel⟩
  have htrees : ∀ c ∈ [wideTree, wideTree, clashTree], c.WellFormed := by
    simp only [List.forall_mem_cons]
    exact ⟨hwide, hwide, hclash, by simp⟩
  have hshards : (List.ofFn threeShards).flatten.Perm [wideTree, wideTree, clashTree] := by
    change ([clashTree] ++ [wideTree, wideTree]).Perm ([wideTree, wideTree] ++ [clashTree])
    exact List.perm_append_comm
  have hsteps : (shardsIn [(1, 2), (0, 1)] (0 : Fin 3)).Perm (List.finRange 3) := by decide
  obtain ⟨-, -, merged, hmerge, hsame, hestimate, -, hweight⟩ :=
    mergeAll_sameCounts htrees hshards hsteps
  refine ⟨merged, hmerge, hsame, ?_, ?_, ?_, hestimate, hweight "A" ["S"] true⟩
  · rw [hsame.symbolCounts]
    decide +kernel
  · rw [hsame.tally]
    decide +kernel
  · rw [hsame.tally]
    decide +kernel

end Grammar
end TreebankGrammar
