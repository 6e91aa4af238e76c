import TreebankGrammar.Proofs.Binarization.Unfolding

/-!
# Binary form

Binarization gives a grammar in binary form: no rule has more than two symbols on the right, and
each new nonterminal is defined by one rule of weight one, which stands before all rules that use the
nonterminal.  No new nonterminal is made in vain, and the naive strategy uses each of them once.

Main definitions:

- `IsDefinedOnce`: a symbol has one rule in a list, in front of the rules that use the symbol.
- `IsBinaryForm`: a list of rules is in binary form, with the given new nonterminals.

Main results:

- Theorem `Stage.pairwise_rules`: rules use only those new nonterminals that have been defined.
- Theorem `Stage.used`: new nonterminals are used as soon as the next rule has been written.
- Theorem `Stage.count_uses`: a naive pass uses new nonterminals once.
- Theorem `Grammar.binarize_isBinaryForm`: binarized rules are in binary form.
-/

namespace TreebankGrammar

/-- A symbol has exactly one rule in a list.  This rule has weight one, is not lexical, has two symbols
on the right, and stands before all rules that have the symbol on the right. -/
def IsDefinedOnce (X : String) (rules : List Rule) : Prop :=
  ∃ before d after, rules = before ++ d :: after ∧ d.lhs = X ∧
    d.weight = .one ∧ d.lexical = false ∧ d.rhs.length = 2 ∧
    (∀ r ∈ before ++ after, r.lhs ≠ X) ∧ ∀ r ∈ before ++ [d], X ∉ r.rhs

/-- A new nonterminal has a symbol on the right of its rule. -/
def DefinedBy (synthetic : List String) (rules : List Rule) (X s : String) : Prop :=
  X ∈ synthetic ∧ ∃ d ∈ rules, d.lhs = X ∧ s ∈ d.rhs

/-- A list of rules is in binary form over the given symbols, with the given new nonterminals. -/
structure IsBinaryForm (symbols synthetic : List String) (rules : List Rule) : Prop where
  length_rhs_le : ∀ r ∈ rules, r.rhs.length ≤ 2
  nodup_synthetic : synthetic.Nodup
  not_mem_symbols : ∀ X ∈ synthetic, X ∉ symbols
  known : ∀ r ∈ rules, ∀ s ∈ r.lhs :: r.rhs, s ∈ symbols ∨ s ∈ synthetic
  definition : ∀ X ∈ synthetic, IsDefinedOnce X rules
  acyclic : ∀ X, ¬Relation.TransGen (DefinedBy synthetic rules) X X
  used : ∀ X ∈ synthetic, ∃ r ∈ rules, X ∈ r.rhs
  nodup_productions : (rules.map Rule.toProduction).Nodup

namespace Pass

variable {strategy : Strategy} {stem : String} {symbols : List String} {source out : List Rule}
  {p : Pass} {position : Position} {expand : String → List String}

/-! ## Definitions without cycles -/

namespace Explains

/-- What a new nonterminal stands for is longer than what a symbol in its rule stands for. -/
theorem length_expand_lt (h : Explains symbols source p out expand) {X s : String}
    (huses : DefinedBy p.synthetic out X s) : (expand s).length < (expand X).length := by
  rcases huses with ⟨hX, d, hd, rfl, hs⟩
  rcases h.definition hd hX with ⟨left, right, heq, -, -⟩
  have hrhs : d.rhs = [left, right] := congrArg (fun r : Rule => r.rhs) heq
  have hleft : 0 < (expand left).length := List.length_pos_of_ne_nil (h.expand_ne_nil left)
  have hright : 0 < (expand right).length := List.length_pos_of_ne_nil (h.expand_ne_nil right)
  have hlength : (expand d.lhs).length = (expand left).length + (expand right).length := by
    rw [h.expand_lhs hd hX, hrhs]
    simp
  rw [hrhs] at hs
  simp only [List.mem_cons, List.not_mem_nil, or_false] at hs
  rcases hs with rfl | rfl
  · omega
  · omega

/-- No new nonterminal leads back to itself. -/
theorem not_transGen_definedBy (h : Explains symbols source p out expand) (X : String) :
    ¬Relation.TransGen (DefinedBy p.synthetic out) X X := by
  have hlength : ∀ {s t : String}, Relation.TransGen (DefinedBy p.synthetic out) s t →
      (expand t).length < (expand s).length := by
    intro s t huses
    induction huses with
    | single huse => exact h.length_expand_lt huse
    | tail _ huse ih => exact Nat.lt_trans (h.length_expand_lt huse) ih
  exact fun hcycle => Nat.lt_irrefl _ (hlength hcycle)

end Explains

/-! ## Definitions before uses -/

namespace Stage

/-- The rules written so far are in step with the state at every stage. -/
theorem records (stage : Stage strategy stem symbols source p out position) :
    Records symbols p out := by
  rcases stage.exists_explainsAt with ⟨expand, h⟩
  exact h.toRecords

/-- Inside a rule, the symbol that stands for those that have been folded is known. -/
theorem knows_left {r : Rule} {folded rest : List String} {left : String}
    (stage : Stage strategy stem symbols source p out (.inside r folded left rest)) :
    p.Knows symbols left := by
  rcases stage.exists_explainsAt with ⟨expand, h⟩
  exact (h.pending r folded left rest rfl).1

/-- No rule uses a new nonterminal whose rule is written later. -/
theorem pairwise_rules (stage : Stage strategy stem symbols source p out position) :
    out.Pairwise fun r d => d.lhs ∉ symbols → d.lhs ∉ r.rhs := by
  -- A rule for a symbol of the grammar defines nothing new.
  have hold : ∀ {rules : List Rule} {k : Rule}, k.lhs ∈ symbols →
      rules.Pairwise (fun r d => d.lhs ∉ symbols → d.lhs ∉ r.rhs) →
      (rules ++ [k]).Pairwise fun r d => d.lhs ∉ symbols → d.lhs ∉ r.rhs := by
    intro rules k hk hrules
    refine List.pairwise_append.2 ⟨hrules, List.pairwise_singleton _ k, ?_⟩
    intro r _ d hd hnew
    rw [List.mem_singleton.1 hd] at hnew
    exact absurd hk hnew
  induction stage with
  | start => exact .nil
  | copy _ hlhs _ _ ih => exact hold hlhs ih
  | enter _ _ ih => exact ih
  | @fold _ _ _ _ _ _ _ _ _ _ X stage _ step ih =>
    cases step with
    | found _ _ => simpa using ih
    | made hadds _ _ _ =>
      refine List.pairwise_append.2 ⟨ih, List.pairwise_singleton _ _, ?_⟩
      intro r hr d hd _ hmem
      rw [List.mem_singleton.1 hd, lhs_defining] at hmem
      exact hadds.ne_of_knows (stage.records.rhs_known r hr X hmem) rfl
  | close stage ih => exact hold stage.isCut.lhs_mem ih

/-- A new nonterminal is defined once, before it is used. -/
theorem isDefinedOnce (stage : Stage strategy stem symbols source p out position) {X : String}
    (hX : X ∈ p.synthetic) : IsDefinedOnce X out := by
  rcases stage.exists_explainsAt with ⟨expand, h⟩
  rcases h.exists_rule hX with ⟨d, hd, rfl⟩
  rcases h.definition hd hX with ⟨left, right, heq, -, -⟩
  have hnew := h.regular.not_mem_symbols d.lhs hX
  have hself : d.lhs ∉ d.rhs := fun hmem =>
    h.not_transGen_definedBy d.lhs (.single ⟨hX, d, hd, rfl, hmem⟩)
  rcases List.append_of_mem hd with ⟨before, after, hout⟩
  have hpairwise := stage.pairwise_rules
  have hlhs := h.lhs_definitions
  refine ⟨before, d, after, hout, rfl, ?_, ?_, h.length_rhs hd hX, ?_, ?_⟩
  · exact congrArg (fun r : Rule => r.weight) heq
  · exact congrArg (fun r : Rule => r.lexical) heq
  · -- The left-hand sides of definitions are the new nonterminals, each of them once.
    have hnodup := h.regular.nodup_synthetic
    rw [← hlhs, hout, List.filter_append, List.filter_cons_of_pos (by simpa using hnew),
      List.map_append, List.map_cons, List.nodup_middle, List.nodup_cons, ← List.map_append,
      ← List.filter_append] at hnodup
    intro r hr heq
    refine hnodup.1 (List.mem_map.2 ⟨r, List.mem_filter.2 ⟨hr, ?_⟩, heq⟩)
    simpa [heq] using hnew
  · intro r hr
    rw [hout] at hpairwise
    rcases List.mem_append.1 hr with hr | hr
    · exact (List.pairwise_append.1 hpairwise).2.2 r hr d List.mem_cons_self hnew
    · rw [List.mem_singleton.1 hr]
      exact hself

/-! ## Uses of new nonterminals -/

/-- Every new nonterminal is used, unless it is the one that will stand in the next rule. -/
theorem used (stage : Stage strategy stem symbols source p out position) :
    ∀ X ∈ p.synthetic, X ∈ position.pending ∨ ∃ r ∈ out, X ∈ r.rhs := by
  induction stage with
  | start => simp [Pass.start]
  | copy _ _ _ _ ih =>
    intro X hX
    rcases ih X hX with hpending | ⟨r, hr, hmem⟩
    · cases hpending
    · exact Or.inr ⟨r, List.mem_append_left _ hr, hmem⟩
  | enter _ _ ih =>
    intro X hX
    rcases ih X hX with hpending | hused
    · cases hpending
    · exact Or.inr hused
  | fold stage hrest step ih =>
    intro Y hY
    have hright := stage.isCut.mem_of_mem_rest List.mem_cons_self
    rcases stage.records.foldStep stage.knows_left hright step with ⟨-, -, -, hrule⟩
    rcases step.mem_synthetic hY with hold | rfl
    · right
      rcases ih Y hold with hpending | ⟨r, hr, hmem⟩
      · rw [List.mem_singleton.1 hpending]
        exact ⟨_, hrule, by simp⟩
      · exact ⟨r, List.mem_append_left _ hr, hmem⟩
    · exact Or.inl (List.mem_singleton.2 rfl)
  | close _ ih =>
    intro X hX
    right
    rcases ih X hX with hpending | ⟨r, hr, hmem⟩
    · exact ⟨_, List.mem_append_right _ List.mem_cons_self, by simp [List.mem_singleton.1 hpending]⟩
    · exact ⟨r, List.mem_append_left _ hr, hmem⟩

end Stage

/-- How often a symbol stands on the right of rules. -/
def uses (rules : List Rule) (s : String) : Nat :=
  (rules.flatMap fun r => r.rhs).count s

theorem uses_concat (rules : List Rule) (k : Rule) (s : String) :
    uses (rules ++ [k]) s = uses rules s + k.rhs.count s := by
  simp [uses, List.flatMap_append]

/-- A symbol that is not known stands on the right of no rule. -/
theorem Records.uses_eq_zero (h : Records symbols p out) {s : String} (hs : ¬p.Knows symbols s) :
    uses out s = 0 := by
  rw [uses, List.count_eq_zero]
  intro hmem
  rcases List.mem_flatMap.1 hmem with ⟨r, hr, hmem⟩
  exact hs (h.rhs_known r hr s hmem)

/-- A new nonterminal that will stand on the left of the next pair, or has been used once, has been used
once with this pair. -/
theorem uses_concat_pair {k : Rule} {left right X : String} (hk : k.rhs = [left, right])
    (hX : X ∉ symbols) (hright : right ∈ symbols)
    (hbefore : uses out X = if X ∈ [left] then 0 else 1) : uses (out ++ [k]) X = 1 := by
  have hne : right ≠ X := fun heq => hX (heq ▸ hright)
  rw [uses_concat, hbefore, hk]
  by_cases hleft : left = X
  · simp [hleft, hne]
  · simp [hleft, hne, Ne.symm hleft]

namespace Stage

/-- Under the naive strategy every new nonterminal is used once, the one that will stand in the next
rule not yet. -/
theorem count_uses (stage : Stage .naive stem symbols source p out position) :
    ∀ X ∈ p.synthetic, uses out X = if X ∈ position.pending then 0 else 1 := by
  induction stage with
  | start => simp [Pass.start]
  | @copy _ _ _ r stage _ hrhs _ ih =>
    intro X hX
    have hnone : X ∉ r.rhs := fun hmem => stage.regular.not_mem_symbols X hX (hrhs X hmem)
    rw [uses_concat, ih X hX, List.count_eq_zero_of_not_mem hnone]
    rfl
  | @enter _ _ _ r first rest stage hcut ih =>
    intro X hX
    have hfirst : first ∈ symbols := hcut.rhs_mem first (by simp [hcut.rhs_eq])
    have hne : X ≠ first := fun heq => stage.regular.not_mem_symbols X hX (heq ▸ hfirst)
    rw [ih X hX]
    simp [Position.pending, hne]
  | @fold _ _ _ p _ _ _ _ left right X stage _ step ih =>
    have hright : right ∈ symbols := stage.isCut.mem_of_mem_rest List.mem_cons_self
    cases step with
    | found hshared _ =>
      rw [stage.strategy_eq] at hshared
      cases hshared
    | made hadds _ _ _ =>
      intro Y hY
      rcases (hadds.mem_synthetic_iff Y).1 hY with hold | rfl
      · have hne : Y ≠ X := hadds.ne_of_knows (Or.inr hold)
        rw [uses_concat_pair (rhs_defining X left right) (stage.regular.not_mem_symbols Y hold)
          hright (ih Y hold)]
        simp [Position.pending, hne]
      · have hnew : ¬p.Knows symbols Y := fun hknown => hadds.ne_of_knows hknown rfl
        have hleft : left ≠ Y := fun heq => hnew (heq ▸ stage.knows_left)
        have hne : right ≠ Y := fun heq => hadds.not_mem_symbols (heq ▸ hright)
        rw [uses_concat, stage.records.uses_eq_zero hnew]
        simp [Position.pending, hleft, hne]
  | @close _ _ _ r _ left last stage ih =>
    intro X hX
    have hlast : last ∈ symbols := stage.isCut.mem_of_mem_rest List.mem_cons_self
    rw [uses_concat_pair (rhs_closing r left last) (stage.regular.not_mem_symbols X hX) hlast
      (ih X hX)]
    rfl

end Stage
end Pass

/-- Binarized rules are in binary form, and each new nonterminal of the naive strategy stands on the right
once. -/
theorem Grammar.binarize_isBinaryForm (g : Grammar) (stem : String) :
    (∀ strategy, ∃ out, (g.binarize strategy stem).result = .ok out ∧
      IsBinaryForm g.symbols (g.binarize strategy stem).pass.synthetic out) ∧
    ∃ out, (g.binarize .naive stem).result = .ok out ∧
      ∀ X ∈ (g.binarize .naive stem).pass.synthetic, (out.flatMap fun r => r.rhs).count X = 1 := by
  constructor
  · intro strategy
    rcases g.exists_stage strategy stem with ⟨out, hresult, stage⟩
    rcases stage.exists_explainsAt with ⟨expand, h⟩
    refine ⟨out, hresult, ?_⟩
    constructor
    · exact h.length_rhs_le
    · exact h.regular.nodup_synthetic
    · exact h.regular.not_mem_symbols
    · intro r hr s hs
      rcases List.mem_cons.1 hs with rfl | hs
      · exact h.lhs_known hr
      · exact h.rhs_known r hr s hs
    · exact fun X hX => stage.isDefinedOnce hX
    · exact h.not_transGen_definedBy
    · exact fun X hX => (stage.used X hX).resolve_left List.not_mem_nil
    · exact h.nodup_productions g.nodup_productions
  · rcases g.exists_stage .naive stem with ⟨out, hresult, stage⟩
    refine ⟨out, hresult, fun X hX => ?_⟩
    exact stage.count_uses X hX

end TreebankGrammar
