import TreebankGrammar.Proofs.Binarization.PassStep
import TreebankGrammar.Proofs.Grammar.Symbols

/-!
# Stages of a pass

A pass stands between two rules, or inside a long rule of which the first symbols have been folded
into one.  All that it does from its start to its end is to copy a short rule, to enter a long
rule, to fold one more symbol of it and to close it.  What holds at the start and is kept by
these four steps holds of the rules that binarizing a grammar gives.

Main definitions:

- `Pass.Position`: where a pass stands.
- `Pass.Stage`: the stages that a pass goes through.

Main results:

- Theorem `Stage.exists_binarizeRules`: a pass over rules of the grammar succeeds and goes through
  these stages.
- Theorem `Grammar.exists_stage`: so does binarizing a grammar.
-/

namespace TreebankGrammar
namespace Pass

/-! ## Positions -/

/-- Where a pass stands: between two rules, or inside a rule whose first symbols have been folded into
one that stands for them, while the others are still to come. -/
inductive Position where
  | between
  | inside (r : Rule) (folded : List String) (left : String) (rest : List String)

/-- A long rule of the grammar that is cut behind the symbols that have been folded. -/
structure IsCut (symbols : List String) (r : Rule) (folded rest : List String) : Prop where
  lhs_mem : r.lhs ∈ symbols
  rhs_mem : ∀ s ∈ r.rhs, s ∈ symbols
  maxRhs_lt : maxRhs < r.rhs.length
  rhs_eq : r.rhs = folded ++ rest
  folded_ne_nil : folded ≠ []

/-- Inside a rule, the symbols folded and the symbols to come are those on the right of the rule. -/
def Position.IsRegular (symbols : List String) : Position → Prop
  | .between => True
  | .inside r folded _ rest => IsCut symbols r folded rest

/-- The rules that a pass has read, the rule inside which it stands included. -/
def Position.begun (source : List Rule) : Position → List Rule
  | .between => source
  | .inside r _ _ _ => source ++ [r]

/-- The symbol that will stand in the next rule that is written. -/
def Position.pending : Position → List String
  | .between => []
  | .inside _ _ left _ => [left]

namespace IsCut

variable {symbols folded rest : List String} {r : Rule} {s : String}

theorem mem_of_mem_rest (h : IsCut symbols r folded rest) (hs : s ∈ rest) : s ∈ symbols := by
  apply h.rhs_mem
  rw [h.rhs_eq]
  exact List.mem_append_right folded hs

/-- One more symbol is folded. -/
theorem next {right : String} (h : IsCut symbols r folded (right :: rest)) :
    IsCut symbols r (folded ++ [right]) rest where
  lhs_mem := h.lhs_mem
  rhs_mem := h.rhs_mem
  maxRhs_lt := h.maxRhs_lt
  rhs_eq := by
    rw [h.rhs_eq]
    simp
  folded_ne_nil := by simp

end IsCut

/-! ## Stages -/

/-- The stages of a pass over rules of a grammar with the given symbols: the rules read so far, the
state, the rules written so far and the position. -/
inductive Stage (strategy : Strategy) (stem : String) (symbols : List String) :
    List Rule → Pass → List Rule → Position → Prop
  | start : Stage strategy stem symbols [] (.start strategy stem symbols) [] .between
  | copy {source out : List Rule} {p : Pass} {r : Rule}
      (stage : Stage strategy stem symbols source p out .between) (lhs_mem : r.lhs ∈ symbols)
      (rhs_mem : ∀ s ∈ r.rhs, s ∈ symbols) (short : r.rhs.length ≤ maxRhs) :
      Stage strategy stem symbols (source ++ [r]) p (out ++ [r]) .between
  | enter {source out : List Rule} {p : Pass} {r : Rule} {first : String} {rest : List String}
      (stage : Stage strategy stem symbols source p out .between)
      (cut : IsCut symbols r [first] rest) :
      Stage strategy stem symbols source p out (.inside r [first] first rest)
  | fold {source out rules : List Rule} {p p' : Pass} {r : Rule} {folded rest : List String}
      {left right X : String}
      (stage : Stage strategy stem symbols source p out (.inside r folded left (right :: rest)))
      (rest_ne_nil : rest ≠ []) (step : FoldStep symbols left right p p' X rules) :
      Stage strategy stem symbols source p' (out ++ rules) (.inside r (folded ++ [right]) X rest)
  | close {source out : List Rule} {p : Pass} {r : Rule} {folded : List String}
      {left last : String}
      (stage : Stage strategy stem symbols source p out (.inside r folded left [last])) :
      Stage strategy stem symbols (source ++ [r]) p (out ++ [closing r left last]) .between

namespace Stage

variable {strategy : Strategy} {stem : String} {symbols : List String} {source out : List Rule}
  {p : Pass} {position : Position}

/-- The state is regular at every stage. -/
theorem regular (stage : Stage strategy stem symbols source p out position) :
    p.Regular symbols := by
  induction stage with
  | start => exact regular_start strategy stem symbols
  | copy _ _ _ _ ih => exact ih
  | enter _ _ ih => exact ih
  | fold _ _ step ih =>
    cases step with
    | found _ _ => exact ih
    | made adds _ _ _ => exact adds.regular
  | close _ ih => exact ih

/-- A pass keeps its strategy. -/
theorem strategy_eq (stage : Stage strategy stem symbols source p out position) :
    p.strategy = strategy := by
  induction stage with
  | start => rfl
  | copy _ _ _ _ ih => exact ih
  | enter _ _ ih => exact ih
  | fold _ _ step ih => rw [step.strategy_eq, ih]
  | close _ ih => exact ih

/-- The position is regular at every stage. -/
theorem isRegular (stage : Stage strategy stem symbols source p out position) :
    position.IsRegular symbols := by
  induction stage with
  | start => trivial
  | copy _ _ _ _ _ => trivial
  | enter _ cut _ => exact cut
  | fold _ _ _ ih => exact IsCut.next ih
  | close _ _ => trivial

/-- Inside a rule, the rule is cut behind the symbols that have been folded. -/
theorem isCut {r : Rule} {folded rest : List String} {left : String}
    (stage : Stage strategy stem symbols source p out (.inside r folded left rest)) :
    IsCut symbols r folded rest :=
  stage.isRegular

/-! ## Runs -/

/-- Folds in a row go through stages until one symbol is left. -/
theorem exists_foldAll {r : Rule} {folded rights : List String} {left last : String}
    (stage : Stage strategy stem symbols source p out (.inside r folded left (rights ++ [last]))) :
    ∃ p' X rules, p.foldAll left rights = (p', .ok (X, rules)) ∧
      Stage strategy stem symbols source p' (out ++ rules)
        (.inside r (folded ++ rights) X [last]) := by
  induction rights generalizing p out folded left with
  | nil => exact ⟨p, left, [], rfl, by simpa using stage⟩
  | cons right rest ih =>
    rcases stage.regular.exists_foldStep left right with ⟨p₁, X, rules, hfold, step⟩
    have hrest : rest ++ [last] ≠ [] := by simp
    rcases ih (stage.fold hrest step) with ⟨p', Y, later, hfoldAll, stage'⟩
    refine ⟨p', Y, rules ++ later, ?_, by simpa using stage'⟩
    simp [foldAll, hfold, hfoldAll]

/-- Splitting a long rule goes through stages. -/
theorem exists_binarizeRule (stage : Stage strategy stem symbols source p out .between) {r : Rule}
    (hlhs : r.lhs ∈ symbols) (hrhs : ∀ s ∈ r.rhs, s ∈ symbols) (hlong : maxRhs < r.rhs.length) :
    ∃ p' rules, p.binarizeRule r = (p', .ok rules) ∧
      Stage strategy stem symbols (source ++ [r]) p' (out ++ rules) .between := by
  rcases exists_rhs_eq_of_maxRhs_lt hlong with ⟨first, middle, last, hsplit⟩
  have hcut : IsCut symbols r [first] (middle ++ [last]) :=
    ⟨hlhs, hrhs, hlong, hsplit, by simp⟩
  rcases (stage.enter hcut).exists_foldAll with ⟨p', left, rules, hfold, stage'⟩
  refine ⟨p', rules ++ [closing r left last], binarizeRule_of_foldAll hsplit hfold, ?_⟩
  rw [← List.append_assoc]
  exact stage'.close

/-- A pass over rules of the grammar succeeds and goes through stages. -/
theorem exists_binarizeRules (stage : Stage strategy stem symbols source p out .between)
    {rs : List Rule} (hlhs : ∀ r ∈ rs, r.lhs ∈ symbols)
    (hrhs : ∀ r ∈ rs, ∀ s ∈ r.rhs, s ∈ symbols) :
    ∃ p' rules, p.binarizeRules rs = (p', .ok rules) ∧
      Stage strategy stem symbols (source ++ rs) p' (out ++ rules) .between := by
  induction rs generalizing p out source with
  | nil => exact ⟨p, [], rfl, by simpa using stage⟩
  | cons r rest ih =>
    rcases List.forall_mem_cons.1 hlhs with ⟨hr, hlhs'⟩
    rcases List.forall_mem_cons.1 hrhs with ⟨hs, hrhs'⟩
    by_cases hshort : r.rhs.length ≤ maxRhs
    · rcases ih (stage.copy hr hs hshort) hlhs' hrhs' with ⟨p', later, hrest, stage'⟩
      refine ⟨p', r :: later, ?_, by simpa using stage'⟩
      simp [binarizeRules, hshort, hrest]
    · rcases stage.exists_binarizeRule hr hs (by omega) with ⟨p₁, rules, hrule, stage₁⟩
      rcases ih stage₁ hlhs' hrhs' with ⟨p', later, hrest, stage'⟩
      refine ⟨p', rules ++ later, ?_, by simpa using stage'⟩
      simp [binarizeRules, hshort, hrule, hrest]

end Stage
end Pass

/-- Binarizing a grammar succeeds, and its pass goes through stages until all rules are read. -/
theorem Grammar.exists_stage (g : Grammar) (strategy : Strategy) (stem : String) :
    ∃ out, (g.binarize strategy stem).result = .ok out ∧
      Pass.Stage strategy stem g.symbols g.rules (g.binarize strategy stem).pass out .between := by
  rcases Pass.Stage.exists_binarizeRules .start (fun _ hr => lhs_mem_symbols hr)
      fun _ hr _ hs => rhs_mem_symbols hr hs with ⟨p, out, hrun, stage⟩
  rcases binarize_of_binarizeRules hrun with ⟨hpass, hresult⟩
  refine ⟨out, hresult, ?_⟩
  rw [hpass]
  simpa using stage

end TreebankGrammar
