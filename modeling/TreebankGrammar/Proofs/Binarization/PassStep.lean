import TreebankGrammar.Binarization.Basic
import TreebankGrammar.Proofs.Binarization.FreshNames

/-!
# Steps of a binarization pass

A pass over a grammar whose names come from a fresh supply never fails: the name of the next
nonterminal is neither a symbol of the grammar nor a nonterminal that the pass has made before.
All that a fold can do is to find the nonterminal of its pair or to make a new one.

Main results:

- Theorem `Regular.exists_mint`: a new nonterminal can always be made, and is new.
- Theorem `Regular.exists_foldStep`: a fold always succeeds, by a step of the kind `FoldStep`.
-/

namespace TreebankGrammar
namespace Pass

/-! ## Rules of a pass -/

@[simp]
theorem lhs_defining (symbol left right : String) : (defining symbol left right).lhs = symbol :=
  rfl

@[simp]
theorem rhs_defining (symbol left right : String) :
    (defining symbol left right).rhs = [left, right] :=
  rfl

@[simp]
theorem lhs_closing (r : Rule) (left last : String) : (closing r left last).lhs = r.lhs :=
  rfl

@[simp]
theorem rhs_closing (r : Rule) (left last : String) : (closing r left last).rhs = [left, last] :=
  rfl

@[simp]
theorem lexical_closing (r : Rule) (left last : String) : (closing r left last).lexical = false :=
  rfl

@[simp]
theorem weight_closing (r : Rule) (left last : String) : (closing r left last).weight = r.weight :=
  rfl

/-- A defining rule determines its pair of symbols. -/
theorem defining_inj {X Y left right left' right' : String}
    (h : defining X left right = defining Y left' right') :
    X = Y ∧ left = left' ∧ right = right' := by
  have hlhs : X = Y := congrArg (fun r : Rule => r.lhs) h
  have hrhs : [left, right] = [left', right'] := congrArg (fun r : Rule => r.rhs) h
  exact ⟨hlhs, by simpa using hrhs⟩

/-- A rule that is split has a first symbol and a last one, and others between them. -/
theorem exists_rhs_eq_of_maxRhs_lt {r : Rule} (h : maxRhs < r.rhs.length) :
    ∃ first middle last, r.rhs = first :: (middle ++ [last]) := by
  rcases List.exists_cons_of_length_pos (Nat.zero_lt_of_lt h) with ⟨first, rest, hcons⟩
  rcases List.eq_nil_or_concat rest with rfl | ⟨middle, last, hrest⟩
  · simp [hcons, maxRhs] at h
  · exact ⟨first, middle, last, by rw [hcons, hrest, List.concat_eq_append]⟩

/-- A rule that is split is not lexical. -/
theorem lexical_eq_false_of_maxRhs_lt {r : Rule} (h : maxRhs < r.rhs.length) :
    r.lexical = false := by
  cases hflag : r.lexical with
  | false => rfl
  | true =>
    have := r.length_of_lexical hflag
    simp [maxRhs] at h
    omega

/-- Splitting a rule: all symbols but the last are folded, and the last stands beside the result. -/
theorem binarizeRule_of_foldAll {p p' : Pass} {r : Rule} {first last left : String}
    {middle : List String} {rules : List Rule} (hrhs : r.rhs = first :: (middle ++ [last]))
    (hfold : p.foldAll first middle = (p', .ok (left, rules))) :
    p.binarizeRule r = (p', .ok (rules ++ [closing r left last])) := by
  simp [binarizeRule, hrhs, hfold]

/-! ## Regular states -/

/-- The states that a pass over a grammar with the given symbols goes through. -/
structure Regular (symbols : List String) (p : Pass) : Prop where
  reserved_eq : p.reserved = symbols
  naming_fresh : ∃ stem n, p.naming = .fresh { stem, reserved := symbols, counter := n } ∧
    ∀ X ∈ p.synthetic, ∃ m ≤ n, X = Supply.numbered stem m
  mem_minted_iff : ∀ X, X ∈ p.minted ↔ X ∈ p.synthetic
  nodup_synthetic : p.synthetic.Nodup
  not_mem_symbols : ∀ X ∈ p.synthetic, X ∉ symbols

/-- A pass begins in a regular state. -/
theorem regular_start (strategy : Strategy) (stem : String) (symbols : List String) :
    (start strategy stem symbols).Regular symbols where
  reserved_eq := rfl
  naming_fresh := ⟨stem, 0, rfl, by simp [start]⟩
  mem_minted_iff := by simp [start]
  nodup_synthetic := by simp [start]
  not_mem_symbols := by simp [start]

/-- The memory of pairs has no part in the regularity of a state. -/
theorem Regular.remember {symbols : List String} {p : Pass} (h : p.Regular symbols)
    (left right symbol : String) : (p.remember left right symbol).Regular symbols :=
  ⟨h.reserved_eq, h.naming_fresh, h.mem_minted_iff, h.nodup_synthetic, h.not_mem_symbols⟩

/-! ## New nonterminals -/

/-- How the state changes when a new nonterminal is made. -/
structure Adds (symbols : List String) (p : Pass) (X : String) (p' : Pass) : Prop where
  regular : p'.Regular symbols
  not_mem_symbols : X ∉ symbols
  not_mem_synthetic : X ∉ p.synthetic
  synthetic_eq : p'.synthetic = p.synthetic ++ [X]
  strategy_eq : p'.strategy = p.strategy

/-- The state after the name with number `k` has been given to a new nonterminal. -/
def withNew (p : Pass) (symbols : List String) (stem : String) (k : Nat) : Pass :=
  { p with
    naming := .fresh { stem, reserved := symbols, counter := k }
    synthetic := p.synthetic ++ [Supply.numbered stem k]
    minted := p.minted.insert (Supply.numbered stem k) }

/-- A state stays regular when a name that is free and has not been given before is given. -/
theorem Regular.withNew {symbols : List String} {p : Pass} (h : p.Regular symbols) {stem : String}
    {n k : Nat} (hnumbered : ∀ X ∈ p.synthetic, ∃ m ≤ n, X = Supply.numbered stem m)
    (hle : n ≤ k) (hfree : Supply.numbered stem k ∉ symbols)
    (hnew : Supply.numbered stem k ∉ p.synthetic) :
    (p.withNew symbols stem k).Regular symbols where
  reserved_eq := h.reserved_eq
  naming_fresh := by
    refine ⟨stem, k, rfl, ?_⟩
    intro Y hY
    rcases List.mem_append.1 hY with hY | hY
    · rcases hnumbered Y hY with ⟨m, hm, heq⟩
      exact ⟨m, by omega, heq⟩
    · exact ⟨k, Nat.le_refl k, List.mem_singleton.1 hY⟩
  mem_minted_iff Y := by
    simp [Pass.withNew, h.mem_minted_iff, or_comm]
  nodup_synthetic := by
    refine List.nodup_append.2 ⟨h.nodup_synthetic, by simp, ?_⟩
    intro Y hY Z hZ heq
    rw [List.mem_singleton.1 hZ] at heq
    exact hnew (heq ▸ hY)
  not_mem_symbols Y hY := by
    rcases List.mem_append.1 hY with hY | hY
    · exact h.not_mem_symbols Y hY
    · rw [List.mem_singleton.1 hY]
      exact hfree

/-- In a regular state a new nonterminal can be made. -/
theorem Regular.exists_mint {symbols : List String} {p : Pass} (h : p.Regular symbols) :
    ∃ p' X, p.mint = (p', .ok X) ∧ p.Adds symbols X p' ∧ p'.memo = p.memo := by
  rcases h.naming_fresh with ⟨stem, n, hnaming, hnumbered⟩
  let k := Supply.nextFree stem symbols n
  let X := Supply.numbered stem k
  have hlt : n < k := Supply.lt_nextFree stem symbols n
  have hX : X ∉ symbols := Supply.nextFree_not_mem stem symbols n
  -- The numbers given so far are smaller.
  have hnew : X ∉ p.synthetic := by
    intro hmem
    rcases hnumbered X hmem with ⟨m, hm, heq⟩
    have : k = m := Supply.numbered_injective stem heq
    omega
  have hminted : X ∉ p.minted := fun hmem => hnew ((h.mem_minted_iff X).1 hmem)
  have hmint : p.mint = (p.withNew symbols stem k, .ok X) := by
    have hnext : p.naming.next = (X, .fresh { stem, reserved := symbols, counter := k }) := by
      rw [hnaming]
      rfl
    have hfree : ¬(X ∈ p.reserved ∨ X ∈ p.minted) := by
      rw [h.reserved_eq]
      exact not_or.2 ⟨hX, hminted⟩
    simp [mint, hnext, hfree, X, Pass.withNew]
  have hregular := h.withNew hnumbered (Nat.le_of_lt hlt) hX hnew
  exact ⟨p.withNew symbols stem k, X, hmint, ⟨hregular, hX, hnew, rfl, rfl⟩, rfl⟩

/-! ## Folds -/

/-- What a fold does: it finds the nonterminal of its pair, which changes nothing, or it makes a new
nonterminal with a rule, and remembers it under the shared strategy. -/
inductive FoldStep (symbols : List String) (left right : String) (p : Pass) :
    Pass → String → List Rule → Prop
  | found {X : String} (shared : p.strategy = .shared)
      (known : p.memo.get? (left, right) = some X) : FoldStep symbols left right p p X []
  | made {p' : Pass} {X : String} (adds : p.Adds symbols X p')
      (memo_naive : p.strategy = .naive → p'.memo = p.memo)
      (unknown : p.strategy = .shared → p.memo.get? (left, right) = none)
      (memo_shared : p.strategy = .shared → p'.memo = p.memo.insert (left, right) X) :
      FoldStep symbols left right p p' X [defining X left right]

/-- A fold does not change the strategy. -/
theorem FoldStep.strategy_eq {symbols : List String} {left right X : String} {p p' : Pass}
    {rules : List Rule} (step : FoldStep symbols left right p p' X rules) :
    p'.strategy = p.strategy := by
  cases step with
  | found _ _ => rfl
  | made hadds _ _ _ => exact hadds.strategy_eq

/-- A fold makes no nonterminal but the one that it gives. -/
theorem FoldStep.mem_synthetic {symbols : List String} {left right X Y : String} {p p' : Pass}
    {rules : List Rule} (step : FoldStep symbols left right p p' X rules)
    (hY : Y ∈ p'.synthetic) : Y ∈ p.synthetic ∨ Y = X := by
  cases step with
  | found _ _ => exact Or.inl hY
  | made hadds _ _ _ =>
    rw [hadds.synthetic_eq] at hY
    simpa using hY

/-- In a regular state every fold succeeds. -/
theorem Regular.exists_foldStep {symbols : List String} {p : Pass} (h : p.Regular symbols)
    (left right : String) :
    ∃ p' X rules, p.fold left right = (p', .ok (X, rules)) ∧
      FoldStep symbols left right p p' X rules := by
  rcases h.exists_mint with ⟨p', X, hmint, hadds, hmemo⟩
  have hnew : p.foldNew left right = (p', .ok (X, [defining X left right])) := by
    simp [foldNew, hmint]
  cases hstrategy : p.strategy with
  | naive =>
    refine ⟨p', X, _, ?_, .made hadds (fun _ => hmemo) ?_ ?_⟩
    · simp [fold, hstrategy, hnew]
    · simp [hstrategy]
    · simp [hstrategy]
  | shared =>
    cases hget : p.memo.get? (left, right) with
    | some Y =>
      refine ⟨p, Y, [], ?_, .found hstrategy hget⟩
      simp [fold, hstrategy, hget]
    | none =>
      have hadds' : p.Adds symbols X (p'.remember left right X) :=
        ⟨hadds.regular.remember left right X, hadds.not_mem_symbols, hadds.not_mem_synthetic,
          hadds.synthetic_eq, hadds.strategy_eq⟩
      refine ⟨p'.remember left right X, X, _, ?_, .made hadds' ?_ (fun _ => hget) ?_⟩
      · simp [fold, hstrategy, hget, hnew]
      · simp [hstrategy]
      · intro _
        simp [Pass.remember, hmemo]

end Pass

/-- Binarizing a grammar is a pass over its rules. -/
theorem Grammar.binarize_of_binarizeRules {g : Grammar} {strategy : Strategy} {stem : String}
    {p : Pass} {rules : List Rule}
    (h : (Pass.start strategy stem g.symbols).binarizeRules g.rules = (p, .ok rules)) :
    (g.binarize strategy stem).pass = p ∧ (g.binarize strategy stem).result = .ok rules := by
  simp [binarize, startPass, h]

end TreebankGrammar
