import TreebankGrammar.Proofs.Binarization.PassStep
import Mathlib.Logic.Relation

/-!
# Moves of a pass

All that changes the state of a pass is that it asks for a name, which becomes a new nonterminal
unless it is in use, and that it remembers a nonterminal just made for a pair that it did not know.
What these two moves keep is kept by folding, by splitting a rule and by binarizing all rules.  These
break off only where a name is in use, which never happens in a regular state.

Main definitions:

- `Pass.MintStep`: what asking for a name does.
- `Pass.Move`: a single change of the state.
- `Pass.Runs`: moves in a row, the last of which may have failed.

Main results:

- Theorem `Pass.runs_binarizeRules`: binarizing rules runs through moves.
- Theorem `Pass.keeps_of_moves`: what single moves keep is kept.
- Theorem `Pass.Regular.exists_ok_of_runs`: from a regular state nothing fails.
-/

namespace TreebankGrammar
namespace Pass

open Relation

/-! ## Names -/

/-- What asking for a name does: the source of names moves on, and the name becomes a new nonterminal
unless it is in use. -/
inductive MintStep (p : Pass) : Pass → Except SymbolInUse String → Prop
  | refused (naming : Naming) (e : SymbolInUse) : MintStep p { p with naming } (.error e)
  | made (naming : Naming) {X : String} (not_reserved : X ∉ p.reserved) (not_minted : X ∉ p.minted) :
      MintStep p
        { p with naming, synthetic := p.synthetic ++ [X], minted := p.minted.insert X } (.ok X)

/-- Asking for a name is a step of this kind. -/
theorem mintStep (p : Pass) : MintStep p p.mint.1 p.mint.2 := by
  unfold mint
  dsimp only
  split
  · exact .refused _ _
  · rename_i hfree
    obtain ⟨hreserved, hminted⟩ := not_or.1 hfree
    exact .made _ hreserved hminted

theorem mintStep_of_mint {p p' : Pass} {result : Except SymbolInUse String}
    (h : p.mint = (p', result)) : MintStep p p' result := by
  have hstep := p.mintStep
  rwa [h] at hstep

/-- A name that is refused changes nothing but the source of names. -/
theorem eq_of_mint_error {p p' : Pass} {e : SymbolInUse} (h : p.mint = (p', .error e)) :
    ∃ naming, p' = { p with naming } := by
  cases mintStep_of_mint h with
  | refused naming _ => exact ⟨naming, rfl⟩

/-! ## Moves -/

/-- A change of the state: a name is asked for, and it may at once be remembered for a pair that was not
known. -/
inductive Move (p : Pass) : Pass → Prop
  | mint : Move p p.mint.1
  | learn {left right X : String} (unknown : p.memo.get? (left, right) = none)
      (made : p.mint.2 = .ok X) : Move p (p.mint.1.remember left right X)

/-- An operation whose state goes through moves, and which fails only when the last of them does. -/
inductive Runs {α : Type} (p : Pass) : Pass × Except SymbolInUse α → Prop
  | finished {p' : Pass} {value : α} (moves : ReflTransGen Move p p') : Runs p (p', .ok value)
  | broken {q p' : Pass} {e : SymbolInUse} (moves : ReflTransGen Move p q)
      (failure : q.mint = (p', .error e)) : Runs p (p', .error e)

namespace Runs

variable {α β : Type} {p q : Pass}

/-- The state at the end is reached by moves. -/
theorem moves {done : Pass × Except SymbolInUse α} (h : Runs p done) :
    ReflTransGen Move p done.1 := by
  cases h with
  | finished moves => exact moves
  | @broken q p' e moves failure =>
    have hlast : Move q p' := by
      have hmove := Move.mint (p := q)
      rwa [failure] at hmove
    exact moves.tail hlast

/-- An operation after others. -/
theorem after {done : Pass × Except SymbolInUse α} (hmoves : ReflTransGen Move p q)
    (h : Runs q done) : Runs p done := by
  cases h with
  | finished moves => exact .finished (hmoves.trans moves)
  | broken moves failure => exact .broken (hmoves.trans moves) failure

/-- An operation that fails when its first part does, and goes on from where that part ends. -/
theorem followedBy {done : Pass × Except SymbolInUse α} {result : Pass × Except SymbolInUse β}
    (h : Runs p done) (herror : ∀ p' e, done = (p', .error e) → result = (p', .error e))
    (hok : ∀ p' value, done = (p', .ok value) → Runs p' result) : Runs p result := by
  cases h with
  | @finished p' value moves => exact (hok p' value rfl).after moves
  | @broken q p' e moves failure =>
    rw [herror p' e rfl]
    exact .broken moves failure

end Runs

/-- What single moves keep is kept by many. -/
theorem keeps_of_moves {P : Pass → Prop} (hP : ∀ {p p' : Pass}, Move p p' → P p → P p')
    {p p' : Pass} (h : ReflTransGen Move p p') (hp : P p) : P p' := by
  induction h with
  | refl => exact hp
  | tail _ hmove ih => exact hP hmove ih

/-! ## Operations -/

theorem runs_mint (p : Pass) : Runs p p.mint := by
  cases hmint : p.mint with
  | mk p' result =>
    cases result with
    | error e => exact .broken .refl hmint
    | ok X =>
      have hmove := Move.mint (p := p)
      rw [hmint] at hmove
      exact .finished (.single hmove)

theorem runs_foldNew (p : Pass) (left right : String) : Runs p (p.foldNew left right) := by
  refine p.runs_mint.followedBy (fun p' e h => by rw [foldNew, h]) fun p' X h => ?_
  rw [foldNew, h]
  exact .finished .refl

/-- A fold of a new pair does what asking for its name does. -/
theorem mint_of_foldNew {p p' : Pass} {left right : String}
    {result : Except SymbolInUse (String × List Rule)} (h : p.foldNew left right = (p', result)) :
    p.mint = (p', result.map Prod.fst) := by
  unfold foldNew at h
  split at h
  · rename_i heq
    cases h
    exact heq
  · rename_i heq
    cases h
    exact heq

theorem runs_fold (p : Pass) (left right : String) : Runs p (p.fold left right) := by
  unfold fold
  split
  · exact p.runs_foldNew left right
  · split
    · exact .finished .refl
    · rename_i hunknown
      cases hnew : p.foldNew left right with
      | mk p' result =>
        have hmint := mint_of_foldNew hnew
        cases result with
        | error e => exact .broken .refl hmint
        | ok folded =>
          have hmove := Move.learn hunknown (congrArg Prod.snd hmint)
          rw [hmint] at hmove
          exact .finished (.single hmove)

/-- A fold fails only because of the name that it asks for. -/
theorem mint_of_fold_error {p p' : Pass} {left right : String} {e : SymbolInUse}
    (h : p.fold left right = (p', .error e)) : p.mint = (p', .error e) := by
  unfold fold at h
  split at h
  · exact mint_of_foldNew h
  · split at h
    · cases h
    · split at h
      · rename_i heq
        cases h
        exact mint_of_foldNew heq
      · cases h

theorem runs_foldAll (p : Pass) (left : String) (rest : List String) :
    Runs p (p.foldAll left rest) := by
  induction rest generalizing p left with
  | nil => exact .finished .refl
  | cons right rest ih =>
    refine (p.runs_fold left right).followedBy (fun p' e h => by rw [foldAll, h]) ?_
    rintro p₁ ⟨symbol, rules⟩ h
    rw [foldAll, h]
    dsimp only
    refine (ih p₁ symbol).followedBy (fun p' e h => by rw [h]) fun p' folded h => ?_
    rw [h]
    exact .finished .refl

theorem runs_binarizeRule (p : Pass) (r : Rule) : Runs p (p.binarizeRule r) := by
  unfold binarizeRule
  split
  · refine (p.runs_foldAll _ _).followedBy (fun p' e h => by rw [h]) fun p' folded h => ?_
    rw [h]
    exact .finished .refl
  · exact .finished .refl

/-- Binarizing rules runs through moves. -/
theorem runs_binarizeRules (p : Pass) (rules : List Rule) : Runs p (p.binarizeRules rules) := by
  induction rules generalizing p with
  | nil => exact .finished .refl
  | cons r rest ih =>
    have hrule : Runs p (if r.rhs.length ≤ maxRhs then (p, .ok [r])
        else p.binarizeRule r : Pass × Except SymbolInUse (List Rule)) := by
      split
      · exact .finished .refl
      · exact p.runs_binarizeRule r
    refine hrule.followedBy (fun p' e h => by rw [binarizeRules, h]) fun p₁ first h => ?_
    rw [binarizeRules, h]
    dsimp only
    refine (ih p₁).followedBy (fun p' e h => by rw [h]) fun p' later h => ?_
    rw [h]
    exact .finished .refl

/-! ## Regular states -/

/-- A regular state stays regular. -/
theorem Regular.move {symbols : List String} {p p' : Pass} (hmove : Move p p')
    (h : p.Regular symbols) : p'.Regular symbols := by
  obtain ⟨q, X, hmint, hadds, -⟩ := h.exists_mint
  cases hmove with
  | mint =>
    rw [hmint]
    exact hadds.regular
  | learn _ _ =>
    rw [hmint]
    exact hadds.regular.remember _ _ _

/-- From a regular state nothing fails. -/
theorem Regular.exists_ok_of_runs {α : Type} {symbols : List String} {p : Pass}
    (h : p.Regular symbols) {done : Pass × Except SymbolInUse α} (hrun : Runs p done) :
    ∃ value, done.2 = .ok value := by
  cases hrun with
  | @finished p' value moves => exact ⟨value, rfl⟩
  | @broken q p' e moves failure =>
    have hq : q.Regular symbols := keeps_of_moves Regular.move moves h
    obtain ⟨q', X, hmint, -⟩ := hq.exists_mint
    rw [hmint] at failure
    cases failure

end Pass
end TreebankGrammar
