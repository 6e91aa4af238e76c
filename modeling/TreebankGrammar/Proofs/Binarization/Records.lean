import Mathlib.Data.List.Nodup
import TreebankGrammar.Proofs.Binarization.PassStep
import TreebankGrammar.Proofs.Table

/-!
# Rules written by a pass

The rules that a pass has written so far are in step with its state: the new nonterminals are
the left-hand sides that are not symbols of the grammar, each has one rule with a pair of symbols on
the right, and the memory holds the nonterminals of pairs whose rules have been written.

Main results:

- Theorem `Records.define`: a new nonterminal with its rule keeps the invariant.
- Theorem `Records.keep`: so does a rule for a symbol of the grammar.
- Theorem `Records.foldStep`: a fold keeps the invariant, and the rule of its nonterminal has been
  written.
-/

namespace TreebankGrammar
namespace Pass

/-! ## Known symbols -/

/-- The symbols that may stand in the rules written so far. -/
def Knows (symbols : List String) (p : Pass) (s : String) : Prop :=
  s ∈ symbols ∨ s ∈ p.synthetic

variable {symbols : List String} {out : List Rule} {p p' : Pass}

/-- The symbols on the right of a closing rule are known. -/
theorem knows_of_mem_rhs_closing {r : Rule} {left last : String} (hleft : p.Knows symbols left)
    (hlast : last ∈ symbols) : ∀ s ∈ (closing r left last).rhs, p.Knows symbols s := by
  intro s hs
  simp only [rhs_closing, List.mem_cons, List.not_mem_nil, or_false] at hs
  rcases hs with rfl | rfl
  · exact hleft
  · exact Or.inl hlast

namespace Adds

/-- The nonterminals after one more has been made. -/
theorem mem_synthetic_iff {X : String} (h : p.Adds symbols X p') (s : String) :
    s ∈ p'.synthetic ↔ s ∈ p.synthetic ∨ s = X := by
  rw [h.synthetic_eq, List.mem_append, List.mem_singleton]

/-- What was known is still known. -/
theorem knows {X s : String} (h : p.Adds symbols X p') (hs : p.Knows symbols s) :
    p'.Knows symbols s :=
  hs.imp id fun hmem => (h.mem_synthetic_iff s).2 (Or.inl hmem)

/-- The new nonterminal was not known. -/
theorem ne_of_knows {X s : String} (h : p.Adds symbols X p') (hs : p.Knows symbols s) : s ≠ X := by
  rintro rfl
  rcases hs with hs | hs
  · exact h.not_mem_symbols hs
  · exact h.not_mem_synthetic hs

end Adds

/-! ## The invariant -/

/-- The invariant of a pass over a grammar with the given symbols that has written the rules
`out`. -/
structure Records (symbols : List String) (p : Pass) (out : List Rule) : Prop where
  regular : p.Regular symbols
  lhs_definitions : (out.filter fun r => r.lhs ∉ symbols).map (fun r => r.lhs) = p.synthetic
  defines : ∀ r ∈ out, r.lhs ∉ symbols →
    ∃ left right, r = defining r.lhs left right ∧ right ∈ symbols
  rhs_known : ∀ r ∈ out, ∀ s ∈ r.rhs, p.Knows symbols s
  length_rhs_le : ∀ r ∈ out, r.rhs.length ≤ maxRhs
  memo_sound : ∀ left right X, p.memo.get? (left, right) = some X →
    X ∈ p.synthetic ∧ defining X left right ∈ out
  memo_complete : p.strategy = .shared → ∀ left right X, X ∈ p.synthetic →
    defining X left right ∈ out → p.memo.get? (left, right) = some X

/-- At the start of a pass no rule has been written. -/
theorem records_start (strategy : Strategy) (stem : String) (symbols : List String) :
    Records symbols (start strategy stem symbols) [] where
  regular := regular_start strategy stem symbols
  lhs_definitions := rfl
  defines := by simp
  rhs_known := by simp
  length_rhs_le := by simp
  memo_sound := by simp [start]
  memo_complete := by simp

namespace Records

/-- All left-hand sides of the rules written so far are known. -/
theorem lhs_known (h : Records symbols p out) {r : Rule} (hr : r ∈ out) :
    p.Knows symbols r.lhs := by
  by_cases hmem : r.lhs ∈ symbols
  · exact Or.inl hmem
  · right
    rw [← h.lhs_definitions]
    exact List.mem_map.2 ⟨r, List.mem_filter.2 ⟨hr, by simpa using hmem⟩, rfl⟩

/-- A rule is for a new nonterminal if it is not for a symbol of the grammar. -/
theorem lhs_mem_synthetic_iff (h : Records symbols p out) {r : Rule} (hr : r ∈ out) :
    r.lhs ∈ p.synthetic ↔ r.lhs ∉ symbols := by
  constructor
  · exact h.regular.not_mem_symbols r.lhs
  · exact (h.lhs_known hr).resolve_left

/-- Every new nonterminal has a rule. -/
theorem exists_rule (h : Records symbols p out) {X : String} (hX : X ∈ p.synthetic) :
    ∃ d ∈ out, d.lhs = X := by
  rw [← h.lhs_definitions] at hX
  rcases List.mem_map.1 hX with ⟨d, hd, hlhs⟩
  exact ⟨d, (List.mem_filter.1 hd).1, hlhs⟩

/-- A new nonterminal has one rule only. -/
theorem eq_of_lhs_eq (h : Records symbols p out) {d d' : Rule} (hd : d ∈ out) (hd' : d' ∈ out)
    (hlhs : d.lhs ∈ p.synthetic) (heq : d.lhs = d'.lhs) : d = d' := by
  have hnodup : ((out.filter fun r => r.lhs ∉ symbols).map fun r => r.lhs).Nodup := by
    rw [h.lhs_definitions]
    exact h.regular.nodup_synthetic
  have hnew := h.regular.not_mem_symbols d.lhs hlhs
  refine List.inj_on_of_nodup_map hnodup ?_ ?_ heq
  · exact List.mem_filter.2 ⟨hd, by simpa using hnew⟩
  · exact List.mem_filter.2 ⟨hd', by simpa [← heq] using hnew⟩

/-- The rule of a new nonterminal has two symbols on the right. -/
theorem length_rhs (h : Records symbols p out) {d : Rule} (hd : d ∈ out)
    (hlhs : d.lhs ∈ p.synthetic) : d.rhs.length = 2 := by
  rcases h.defines d hd (h.regular.not_mem_symbols _ hlhs) with ⟨left, right, heq, -⟩
  rw [congrArg (fun r : Rule => r.rhs) heq]
  rfl

/-! ## Writing rules -/

/-- A new nonterminal with its rule keeps the invariant. -/
theorem define (h : Records symbols p out) {X left right : String} (hadds : p.Adds symbols X p')
    (hleft : p.Knows symbols left) (hright : right ∈ symbols)
    (hnaive : p.strategy = .naive → p'.memo = p.memo)
    (hunknown : p.strategy = .shared → p.memo.get? (left, right) = none)
    (hshared : p.strategy = .shared → p'.memo = p.memo.insert (left, right) X) :
    Records symbols p' (out ++ [defining X left right]) where
  regular := hadds.regular
  lhs_definitions := by
    rw [List.filter_append, List.map_append, h.lhs_definitions, hadds.synthetic_eq]
    simp [hadds.not_mem_symbols]
  defines r hr hlhs := by
    rcases List.mem_append.1 hr with hr | hr
    · exact h.defines r hr hlhs
    · rw [List.mem_singleton.1 hr]
      exact ⟨left, right, rfl, hright⟩
  rhs_known r hr s hs := by
    rcases List.mem_append.1 hr with hr | hr
    · exact hadds.knows (h.rhs_known r hr s hs)
    · rw [List.mem_singleton.1 hr] at hs
      simp only [rhs_defining, List.mem_cons, List.not_mem_nil, or_false] at hs
      rcases hs with rfl | rfl
      · exact hadds.knows hleft
      · exact Or.inl hright
  length_rhs_le r hr := by
    rcases List.mem_append.1 hr with hr | hr
    · exact h.length_rhs_le r hr
    · rw [List.mem_singleton.1 hr]
      simp [maxRhs]
  memo_sound l r Y hget := by
    have hold : p.memo.get? (l, r) = some Y →
        Y ∈ p'.synthetic ∧ defining Y l r ∈ out ++ [defining X left right] := by
      intro hget
      rcases h.memo_sound l r Y hget with ⟨hY, hrule⟩
      exact ⟨(hadds.mem_synthetic_iff Y).2 (Or.inl hY), List.mem_append_left _ hrule⟩
    cases hstrategy : p.strategy with
    | naive =>
      rw [hnaive hstrategy] at hget
      exact hold hget
    | shared =>
      rw [hshared hstrategy, Table.get?_insert_eq_some_iff] at hget
      rcases hget with ⟨hkey, rfl⟩ | ⟨-, hget⟩
      · rcases Prod.mk.inj hkey with ⟨rfl, rfl⟩
        exact ⟨(hadds.mem_synthetic_iff X).2 (Or.inr rfl), by simp⟩
      · exact hold hget
  memo_complete hstrategy l r Y hY hrule := by
    rw [hadds.strategy_eq] at hstrategy
    rw [hshared hstrategy, Table.get?_insert]
    rcases List.mem_append.1 hrule with hrule | hrule
    · have hY' : Y ∈ p.synthetic :=
        (h.lhs_known hrule).resolve_left (hadds.regular.not_mem_symbols Y hY)
      have hget := h.memo_complete hstrategy l r Y hY' hrule
      have hkey : (l, r) ≠ (left, right) := by
        intro heq
        rw [heq, hunknown hstrategy] at hget
        cases hget
      rw [if_neg hkey]
      exact hget
    · rcases defining_inj (List.mem_singleton.1 hrule) with ⟨rfl, rfl, rfl⟩
      simp

/-- A rule for a symbol of the grammar keeps the invariant. -/
theorem keep (h : Records symbols p out) {k : Rule} (hlhs : k.lhs ∈ symbols)
    (hrhs : ∀ s ∈ k.rhs, p.Knows symbols s) (hlength : k.rhs.length ≤ maxRhs) :
    Records symbols p (out ++ [k]) where
  regular := h.regular
  lhs_definitions := by
    rw [List.filter_append, List.map_append, h.lhs_definitions]
    simp [hlhs]
  defines r hr hlhs' := by
    rcases List.mem_append.1 hr with hr | hr
    · exact h.defines r hr hlhs'
    · rw [List.mem_singleton.1 hr] at hlhs'
      exact absurd hlhs hlhs'
  rhs_known r hr := by
    rcases List.mem_append.1 hr with hr | hr
    · exact h.rhs_known r hr
    · rw [List.mem_singleton.1 hr]
      exact hrhs
  length_rhs_le r hr := by
    rcases List.mem_append.1 hr with hr | hr
    · exact h.length_rhs_le r hr
    · rw [List.mem_singleton.1 hr]
      exact hlength
  memo_sound left right X hget := by
    rcases h.memo_sound left right X hget with ⟨hX, hrule⟩
    exact ⟨hX, List.mem_append_left _ hrule⟩
  memo_complete hstrategy left right X hX hrule := by
    rcases List.mem_append.1 hrule with hrule | hrule
    · exact h.memo_complete hstrategy left right X hX hrule
    · have hlhs' : X = k.lhs := congrArg (fun r : Rule => r.lhs) (List.mem_singleton.1 hrule)
      exact absurd (hlhs' ▸ hlhs) (h.regular.not_mem_symbols X hX)

/-! ## Folds -/

/-- A fold keeps the invariant, what was known is still known, and the rule of the nonterminal of
the fold has been written. -/
theorem foldStep (h : Records symbols p out) {left right X : String} {rules : List Rule}
    (hleft : p.Knows symbols left) (hright : right ∈ symbols)
    (step : FoldStep symbols left right p p' X rules) :
    Records symbols p' (out ++ rules) ∧ (∀ s, p.Knows symbols s → p'.Knows symbols s) ∧
      X ∈ p'.synthetic ∧ defining X left right ∈ out ++ rules := by
  cases step with
  | found hshared hknown =>
    rcases h.memo_sound left right X hknown with ⟨hX, hrule⟩
    rw [List.append_nil]
    exact ⟨h, fun _ hs => hs, hX, hrule⟩
  | made hadds hnaive hunknown hshared =>
    refine ⟨h.define hadds hleft hright hnaive hunknown hshared, fun _ hs => hadds.knows hs, ?_, ?_⟩
    · exact (hadds.mem_synthetic_iff X).2 (Or.inr rfl)
    · simp

end Records
end Pass
end TreebankGrammar
