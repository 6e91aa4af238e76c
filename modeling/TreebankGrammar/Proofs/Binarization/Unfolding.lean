import Mathlib.Data.List.Forall2
import Mathlib.Logic.Relation
import TreebankGrammar.Proofs.Binarization.Expansion

/-!
# Unfolding binarized rules

Binarization loses nothing.  When the new nonterminals on the right of a binarized rule are
replaced by the right-hand sides of their rules, in any order, the replacing ends after finitely
many steps, and always with the right-hand side of the rule that was binarized.

Main results:

- Theorem `Explains.wellFounded_unfoldStep`: there is no endless sequence of replacements.
- Theorem `Explains.unfoldsTo`: every sequence of replacements ends with what the symbols stand for.
- Theorem `Grammar.binarize_unfoldsTo`: the binarized rules unfold to the rules of the grammar, in
  order and with their weights.
-/

namespace TreebankGrammar

/-! ## Replacing new nonterminals -/

/-- One new nonterminal in a sequence of symbols is replaced by the right-hand side of a rule for
it. -/
inductive UnfoldStep (synthetic : List String) (rules : List Rule) :
    List String → List String → Prop
  | replace (before after : List String) {d : Rule} (hd : d ∈ rules) (hlhs : d.lhs ∈ synthetic) :
      UnfoldStep synthetic rules (before ++ d.lhs :: after) (before ++ d.rhs ++ after)

/-- What a sequence of symbols is when all new nonterminals in it have been replaced: the replacing
gets there, every replacing ends, and none ends anywhere else. -/
structure UnfoldsTo (synthetic : List String) (rules : List Rule) (xs ys : List String) :
    Prop where
  reaches : Relation.ReflTransGen (UnfoldStep synthetic rules) xs ys
  not_mem_synthetic : ∀ s ∈ ys, s ∉ synthetic
  terminates : Acc (fun zs ws => UnfoldStep synthetic rules ws zs) xs
  eq_of_stuck : ∀ zs, Relation.ReflTransGen (UnfoldStep synthetic rules) xs zs →
    (∀ ws, ¬UnfoldStep synthetic rules zs ws) → zs = ys

/-- A binarized rule and the rule that its right-hand side unfolds to. -/
structure RuleUnfoldsTo (synthetic : List String) (rules : List Rule) (k r : Rule) : Prop where
  lhs_eq : k.lhs = r.lhs
  rhs : UnfoldsTo synthetic rules k.rhs r.rhs
  lexical_eq : k.lexical = r.lexical
  weight_eq : k.weight = r.weight

/-- The rules of a list that are not for new nonterminals. -/
def keptRules (synthetic : List String) (rules : List Rule) : List Rule :=
  rules.filter fun r => r.lhs ∉ synthetic

/-- The weights of the rules for a symbol, in order. -/
def weightsOf (symbol : String) (rules : List Rule) : List Weight :=
  (rules.filter fun r => r.lhs = symbol).map fun r => r.weight

/-- Rules that unfold to others have the same weights. -/
theorem weightsOf_eq_of_forall₂ (symbol : String) {synthetic : List String}
    {rules ks rs : List Rule} (h : List.Forall₂ (RuleUnfoldsTo synthetic rules) ks rs) :
    weightsOf symbol ks = weightsOf symbol rs := by
  induction h with
  | nil => rfl
  | @cons k r ks rs hunfold _ ih =>
    by_cases hr : r.lhs = symbol
    · simpa [weightsOf, hunfold.lhs_eq, hunfold.weight_eq, hr] using ih
    · simpa [weightsOf, hunfold.lhs_eq, hr] using ih

namespace Pass
namespace Explains

variable {symbols : List String} {source out : List Rule} {p : Pass}
  {expand : String → List String}

/-! ## Rules of new nonterminals -/

/-- The rules that are not for new nonterminals are those for symbols of the grammar. -/
theorem keptRules_eq (h : Explains symbols source p out expand) :
    keptRules p.synthetic out = out.filter fun r => r.lhs ∈ symbols := by
  apply List.filter_congr
  intro r hr
  have hiff : r.lhs ∉ p.synthetic ↔ r.lhs ∈ symbols := by
    rw [h.lhs_mem_synthetic_iff hr, not_not]
  simp [hiff]

/-- A new nonterminal stands for what the right-hand side of its rule stands for. -/
theorem expand_lhs (h : Explains symbols source p out expand) {d : Rule} (hd : d ∈ out)
    (hlhs : d.lhs ∈ p.synthetic) : expand d.lhs = d.rhs.flatMap expand := by
  rcases h.definition hd hlhs with ⟨left, right, heq, hright, hexpand⟩
  have hrhs : d.rhs = [left, right] := congrArg (fun r : Rule => r.rhs) heq
  rw [hexpand, hrhs]
  simp [h.expand_of_mem_symbols hright]

/-- Every symbol stands for at least one symbol. -/
theorem expand_ne_nil (h : Explains symbols source p out expand) (s : String) :
    expand s ≠ [] := by
  by_cases hs : s ∈ p.synthetic
  · rcases h.exists_rule hs with ⟨d, hd, rfl⟩
    rcases h.definition hd hs with ⟨left, right, -, -, hexpand⟩
    simp [hexpand]
  · simp [h.expand_of_not_mem s hs]

/-- A sequence is no longer than what it stands for. -/
theorem length_le_length_flatMap (h : Explains symbols source p out expand) (xs : List String) :
    xs.length ≤ (xs.flatMap expand).length := by
  induction xs with
  | nil => simp
  | cons s rest ih =>
    have hpos : 0 < (expand s).length := List.length_pos_of_ne_nil (h.expand_ne_nil s)
    rw [List.flatMap_cons, List.length_append, List.length_cons]
    omega

/-! ## Steps -/

variable {xs ys : List String}

/-- A step does not change what a sequence stands for. -/
theorem flatMap_expand_of_step (h : Explains symbols source p out expand)
    (step : UnfoldStep p.synthetic out xs ys) : ys.flatMap expand = xs.flatMap expand := by
  cases step with
  | replace before after hd hlhs => simp [h.expand_lhs hd hlhs]

/-- A step makes a sequence longer. -/
theorem length_lt_of_step (h : Explains symbols source p out expand)
    (step : UnfoldStep p.synthetic out xs ys) : xs.length < ys.length := by
  cases step with
  | replace before after hd hlhs =>
    have := h.length_rhs hd hlhs
    simp only [List.length_append, List.length_cons]
    omega

/-- A step leads from known symbols to known symbols. -/
theorem knows_of_step (h : Explains symbols source p out expand)
    (hxs : ∀ s ∈ xs, p.Knows symbols s) (step : UnfoldStep p.synthetic out xs ys) :
    ∀ s ∈ ys, p.Knows symbols s := by
  cases step with
  | replace before after hd hlhs =>
    intro s hs
    simp only [List.mem_append] at hs
    rcases hs with (hs | hs) | hs
    · exact hxs s (by simp [hs])
    · exact h.rhs_known _ hd s hs
    · exact hxs s (by simp [hs])

/-- There is no endless sequence of steps: each makes the sequence longer, and what it stands for
bounds its length. -/
theorem wellFounded_unfoldStep (h : Explains symbols source p out expand) :
    WellFounded fun ys xs => UnfoldStep p.synthetic out xs ys := by
  let room (xs : List String) : Nat := (xs.flatMap expand).length - xs.length
  refine Subrelation.wf ?_ (measure room).wf
  intro ys xs step
  have hstands := h.flatMap_expand_of_step step
  have hlength := h.length_lt_of_step step
  have hbound := h.length_le_length_flatMap ys
  change (ys.flatMap expand).length - ys.length < (xs.flatMap expand).length - xs.length
  rw [hstands] at hbound ⊢
  omega

/-- A step is possible as long as there is a new nonterminal in the sequence. -/
theorem exists_step (h : Explains symbols source p out expand) {s : String} (hs : s ∈ xs)
    (hsynthetic : s ∈ p.synthetic) : ∃ ys, UnfoldStep p.synthetic out xs ys := by
  rcases List.append_of_mem hs with ⟨before, after, rfl⟩
  rcases h.exists_rule hsynthetic with ⟨d, hd, rfl⟩
  exact ⟨_, .replace before after hd hsynthetic⟩

/-! ## Sequences of steps -/

/-- Sequences of steps do not change what a sequence stands for. -/
theorem flatMap_expand_of_steps (h : Explains symbols source p out expand)
    (steps : Relation.ReflTransGen (UnfoldStep p.synthetic out) xs ys) :
    ys.flatMap expand = xs.flatMap expand := by
  induction steps with
  | refl => rfl
  | tail _ step ih => exact (h.flatMap_expand_of_step step).trans ih

/-- Where no step is possible, a sequence is what it stands for. -/
theorem flatMap_expand_of_stuck (h : Explains symbols source p out expand)
    (hstuck : ∀ ys, ¬UnfoldStep p.synthetic out xs ys) : xs.flatMap expand = xs := by
  apply h.flatMap_expand_of_forall_not_mem
  intro s hs hsynthetic
  rcases h.exists_step hs hsynthetic with ⟨ys, step⟩
  exact hstuck ys step

/-- What known symbols stand for has no new nonterminals in it. -/
theorem not_mem_synthetic_of_mem_flatMap (h : Explains symbols source p out expand)
    (hxs : ∀ s ∈ xs, p.Knows symbols s) : ∀ s ∈ xs.flatMap expand, s ∉ p.synthetic := by
  induction xs using h.wellFounded_unfoldStep.induction with
  | _ xs ih =>
    by_cases hnew : ∃ s ∈ xs, s ∈ p.synthetic
    · rcases hnew with ⟨s, hs, hsynthetic⟩
      rcases h.exists_step hs hsynthetic with ⟨ys, step⟩
      rw [← h.flatMap_expand_of_step step]
      exact ih ys step (h.knows_of_step hxs step)
    · have hnone : ∀ s ∈ xs, s ∉ p.synthetic := fun s hs hsynthetic => hnew ⟨s, hs, hsynthetic⟩
      rw [h.flatMap_expand_of_forall_not_mem hnone]
      exact hnone

/-- Steps lead from every sequence to what it stands for. -/
theorem steps_flatMap_expand (h : Explains symbols source p out expand) (xs : List String) :
    Relation.ReflTransGen (UnfoldStep p.synthetic out) xs (xs.flatMap expand) := by
  induction xs using h.wellFounded_unfoldStep.induction with
  | _ xs ih =>
    by_cases hnew : ∃ s ∈ xs, s ∈ p.synthetic
    · rcases hnew with ⟨s, hs, hsynthetic⟩
      rcases h.exists_step hs hsynthetic with ⟨ys, step⟩
      rw [← h.flatMap_expand_of_step step]
      exact .head step (ih ys step)
    · have hnone : ∀ s ∈ xs, s ∉ p.synthetic := fun s hs hsynthetic => hnew ⟨s, hs, hsynthetic⟩
      rw [h.flatMap_expand_of_forall_not_mem hnone]

/-- Known symbols unfold to what they stand for. -/
theorem unfoldsTo (h : Explains symbols source p out expand)
    (hxs : ∀ s ∈ xs, p.Knows symbols s) :
    UnfoldsTo p.synthetic out xs (xs.flatMap expand) where
  reaches := h.steps_flatMap_expand xs
  not_mem_synthetic := h.not_mem_synthetic_of_mem_flatMap hxs
  terminates := h.wellFounded_unfoldStep.apply xs
  eq_of_stuck zs steps hstuck := by
    rw [← h.flatMap_expand_of_stuck hstuck]
    exact h.flatMap_expand_of_steps steps

/-! ## Rules -/

/-- The kept rules and the rules read, one by one. -/
theorem forall₂_parts (h : Explains symbols source p out expand) :
    List.Forall₂ (fun k r => k.expanded expand = r.parts) (keptRules p.synthetic out) source := by
  rw [h.keptRules_eq]
  have hkept := h.kept
  rwa [← List.forall₂_eq_eq_eq, List.forall₂_map_left_iff, List.forall₂_map_right_iff] at hkept

/-- The kept rules unfold to the rules read. -/
theorem forall₂_ruleUnfoldsTo (h : Explains symbols source p out expand) :
    List.Forall₂ (RuleUnfoldsTo p.synthetic out) (keptRules p.synthetic out) source := by
  have hmem : ∀ k ∈ keptRules p.synthetic out, k ∈ out := fun k hk => (List.mem_filter.1 hk).1
  refine ((List.forall₂_and_left _ _).2 ⟨hmem, h.forall₂_parts⟩).imp ?_
  rintro k r ⟨hk, hparts⟩
  have hlhs : k.lhs = r.lhs := congrArg Prod.fst hparts
  have hrhs : k.rhs.flatMap expand = r.rhs := congrArg (fun parts => parts.2.1) hparts
  have hflag : k.lexical = r.lexical := congrArg (fun parts => parts.2.2.1) hparts
  have hweight : k.weight = r.weight := congrArg (fun parts => parts.2.2.2) hparts
  exact ⟨hlhs, hrhs ▸ h.unfoldsTo (h.rhs_known k hk), hflag, hweight⟩

/-- A symbol of the grammar has the same weights before and after, in the same order. -/
theorem weightsOf_eq (h : Explains symbols source p out expand) {A : String}
    (hA : A ∈ symbols) : weightsOf A out = weightsOf A source := by
  have hkept : weightsOf A out = weightsOf A (keptRules p.synthetic out) := by
    rw [h.keptRules_eq, weightsOf, weightsOf, List.filter_filter]
    congr 1
    apply List.filter_congr
    intro r _
    by_cases hr : r.lhs = A
    · simp [hr, hA]
    · simp [hr]
  rw [hkept]
  exact weightsOf_eq_of_forall₂ A h.forall₂_ruleUnfoldsTo

end Explains
end Pass

/-- Binarization loses nothing: the rules that are not for new nonterminals unfold to the rules of
the grammar, in order, and each nonterminal of the grammar keeps its weights, in order. -/
theorem Grammar.binarize_unfoldsTo (g : Grammar) (strategy : Strategy) (stem : String) :
    ∃ out, (g.binarize strategy stem).result = .ok out ∧
      List.Forall₂ (RuleUnfoldsTo (g.binarize strategy stem).pass.synthetic out)
        (keptRules (g.binarize strategy stem).pass.synthetic out) g.rules ∧
      ∀ A ∈ g.nonterminals, weightsOf A out = weightsOf A g.rules := by
  rcases g.exists_explains strategy stem with ⟨out, expand, hresult, h⟩
  refine ⟨out, hresult, h.forall₂_ruleUnfoldsTo, ?_⟩
  intro A hA
  exact h.weightsOf_eq (mem_symbols_of_mem_nonterminals hA)

/-- The rules that share a nonterminal unfold to the rules of the grammar. -/
theorem Grammar.binarize_unfoldsTo_nested :
    ∃ out, (nested.binarize .shared "X").result = .ok out ∧
      List.Forall₂ (RuleUnfoldsTo (nested.binarize .shared "X").pass.synthetic out)
        (keptRules (nested.binarize .shared "X").pass.synthetic out) nested.rules ∧
      weightsOf "S" out = weightsOf "S" nested.rules := by
  rcases nested.binarize_unfoldsTo .shared "X" with ⟨out, hresult, hunfold, hweights⟩
  exact ⟨out, hresult, hunfold, hweights "S" mem_nonterminals_nested⟩

end TreebankGrammar
