import Mathlib.Data.List.Count
import TreebankGrammar.Grammar.Queries
import TreebankGrammar.Proofs.Grammar.Estimation
import TreebankGrammar.Proofs.Grammar.TreeLogs

/-!
# What a grammar has counted

A grammar that was counted and merged together is known up to the order in its tables by the
list of productions that have gone into it, and of this list only the multiplicities matter.
Merging puts the two lists together.

Main definitions:

- `Grammar.SameCounts`: the tables of two grammars hold the same, in whatever order.
- `Grammar.HasCounted`: a grammar has counted the productions of a list.
- `Candidate.WellFormed`: the productions of a tree can be collected.

Main results:

- Theorem `HasCounted.merge`: merging puts the lists of productions together.
- Theorem `HasCounted.countFrom`: counting trees puts their productions at the end.
- Theorem `HasCounted.sameCounts`: the order of the productions does not matter.
- Theorem `SameCounts.weight_estimate`: grammars with the same counts have the same weights.
-/

namespace TreebankGrammar
namespace Grammar

/-- The tables of two grammars hold the same under the same keys, in whatever order. -/
structure SameCounts (g h : Grammar) : Prop where
  symbolCounts : ∀ X, g.symbolCounts.get? X = h.symbolCounts.get? X
  keys : ∀ X, X ∈ g.rows.keys ↔ X ∈ h.rows.keys
  tally : ∀ p, g.tally? p = h.tally? p

/-- A grammar that is still open has counted the productions of a list, each as often as it
stands there. -/
structure HasCounted (g : Grammar) (log : List Production) : Prop where
  consistent : g.Consistent
  not_normalised : g.normalised = false
  symbolCounts : ∀ X, g.symbolCounts.get? X =
    if X ∈ log.map (·.lhs) then some (log.countP (·.lhs = X) : Int) else none
  keys : ∀ X, X ∈ g.rows.keys ↔ X ∈ log.map (·.lhs)
  tally : ∀ p, g.tally? p = if p ∈ log then some ⟨(log.count p : Int), .zero⟩ else none

/-- The grammar without counts has counted nothing. -/
theorem hasCounted_empty : empty.HasCounted [] where
  consistent := consistent_empty
  not_normalised := rfl
  symbolCounts _ := rfl
  keys _ := Iff.rfl
  tally _ := rfl

namespace HasCounted

variable {g other : Grammar} {log log' : List Production}

/-- A nonterminal that is on the left of no production stands there zero times. -/
theorem countP_lhs_eq_zero {X : String} (hX : X ∉ log.map (·.lhs)) :
    log.countP (·.lhs = X) = 0 := by
  rw [List.countP_eq_zero]
  intro p hp heq
  exact hX (List.mem_map.2 ⟨p, hp, by simpa using heq⟩)

/-- The count of a nonterminal is the number of its productions. -/
theorem symbolCount_eq (h : g.HasCounted log) (X : String) :
    g.symbolCount X = log.countP (·.lhs = X) := by
  rw [symbolCount, Table.getD, h.symbolCounts]
  split
  · rfl
  · rename_i hX
    rw [countP_lhs_eq_zero hX]
    rfl

/-- Grammars that have counted the same productions, in whatever order, hold the same. -/
theorem sameCounts (h : g.HasCounted log) (h' : other.HasCounted log') (hperm : log.Perm log') :
    g.SameCounts other where
  symbolCounts X := by
    rw [h.symbolCounts, h'.symbolCounts, hperm.countP_eq]
    simp only [(hperm.map (·.lhs)).mem_iff]
  keys X := by rw [h.keys, h'.keys, (hperm.map (·.lhs)).mem_iff]
  tally p := by
    rw [h.tally, h'.tally, hperm.count_eq]
    simp only [hperm.mem_iff]

/-- Counting productions with multiplicities puts them at the end of the list. -/
theorem addPairs (h : g.HasCounted log) {pairs : List (Production × Int)}
    (hconsistent : (g.addPairs pairs).Consistent)
    (hmem : ∀ p, p ∈ pairs.map Prod.fst ↔ p ∈ log')
    (hcount : ∀ p ∈ log', multiplicity (· = p) pairs = log'.count p)
    (hlhs : ∀ X, multiplicity (·.lhs = X) pairs = log'.countP (·.lhs = X)) :
    (g.addPairs pairs).HasCounted (log ++ log') := by
  have hkeys : ∀ X, X ∈ pairs.map (·.1.lhs) ↔ X ∈ log'.map (·.lhs) := by
    intro X
    have hmap : pairs.map (·.1.lhs) = (pairs.map Prod.fst).map (·.lhs) := by
      rw [List.map_map]
      rfl
    rw [hmap, List.mem_map, List.mem_map]
    simp only [hmem]
  refine ⟨hconsistent, ?_, fun X => ?_, fun X => ?_, fun p => ?_⟩
  · rw [normalised_addPairs, h.not_normalised]
  · rw [symbolCounts_addPairs, h.symbolCount_eq, hlhs, h.symbolCounts, List.map_append,
      List.countP_append, Int.natCast_add]
    by_cases hX : X ∈ log'.map (·.lhs)
    · rw [if_pos ((hkeys X).2 hX), if_pos (List.mem_append_right _ hX)]
    · rw [if_neg (mt (hkeys X).1 hX), countP_lhs_eq_zero hX, Int.natCast_zero, Int.add_zero]
      simp only [List.mem_append, hX, or_false]
  · rw [mem_keys_addPairs, hkeys, h.keys, List.map_append, List.mem_append, or_comm]
  · rw [tally?_addPairs, h.tally]
    by_cases hp : p ∈ log'
    · rw [if_pos ((hmem p).2 hp), if_pos (List.mem_append_right log hp), hcount p hp,
        List.count_append, Int.natCast_add]
      split
      · rfl
      · rename_i hnot
        rw [List.count_eq_zero_of_not_mem hnot, Int.natCast_zero, Int.zero_add]
        rfl
    · rw [if_neg (mt (hmem p).1 hp), List.count_append, List.count_eq_zero_of_not_mem hp,
        Nat.add_zero]
      simp only [List.mem_append, hp, or_false]

/-- Counting each production of a list once puts the list at the end. -/
theorem addAll (h : g.HasCounted log) {ps : List Production} (hps : ∀ p ∈ ps, p.rhs ≠ []) :
    (g.addAll ps).HasCounted (log ++ ps) := by
  rw [addAll_eq]
  refine h.addPairs ?_ (by simp) (fun p _ => ?_) fun X => multiplicity_once (·.lhs = X) ps
  · refine h.consistent.foldl_add h.not_normalised fun pair hpair => ?_
    obtain ⟨p, hp, rfl⟩ := List.mem_map.1 hpair
    exact ⟨hps p hp, Int.le_refl 1⟩
  · rw [multiplicity_once, List.count_eq_countP]
    rfl

/-- Merging puts the lists of productions together. -/
theorem merge (h : g.HasCounted log) (hother : other.HasCounted log') :
    ∃ merged, g.merge other = .ok merged ∧ merged.HasCounted (log ++ log') := by
  have hmerge : g.merge other = .ok (g.addCounts other) :=
    merge_eq_ok_iff.2
      ⟨h.not_normalised, hother.not_normalised, hother.consistent.checkCounts_eq_ok, rfl⟩
  refine ⟨_, hmerge, ?_⟩
  have hconsistent := h.consistent.merge hother.consistent hmerge
  rw [addCounts_eq] at hconsistent ⊢
  refine h.addPairs hconsistent (fun p => ?_) (fun p hp => ?_) fun X => ?_
  · rw [mem_map_fst_counted, hother.tally]
    by_cases hp : p ∈ log'
    · simp [hp]
    · simp [hp]
  · rw [multiplicity_counted (hother.tally p |>.trans (if_pos hp))]
  · rw [lhs_multiplicity_counted, ← hother.consistent.symbolCount_eq_rowTotal,
      hother.symbolCount_eq]

end HasCounted
end Grammar

/-! ## Counting trees -/

/-- A tree whose productions can be collected. -/
def Candidate.WellFormed (c : Candidate) : Prop :=
  ∃ ps, c.productions = .ok ps

/-- The productions of a tree, none if they cannot be collected. -/
def Candidate.productionList (c : Candidate) : List Production :=
  match c.productions with
  | .ok ps => ps
  | .error _ => []

namespace TreeSource

/-- A well-formed tree can be counted. -/
theorem productions?_built {c : Candidate} (hc : c.WellFormed) :
    (TreeSource.built c).productions? = some c.productionList := by
  obtain ⟨ps, hps⟩ := hc
  rw [productions?_eq_some_iff]
  exact ⟨c, rfl, by rw [Candidate.productionList, hps]⟩

/-- The log of well-formed trees. -/
theorem log_built {cs : List Candidate} (hcs : ∀ c ∈ cs, c.WellFormed) :
    log (cs.map .built) = cs.flatMap Candidate.productionList := by
  induction cs with
  | nil => rfl
  | cons c cs ih =>
    obtain ⟨hc, hrest⟩ := List.forall_mem_cons.1 hcs
    rw [List.map_cons, log, productions?_built hc, List.flatMap_cons, ← ih hrest]

end TreeSource

namespace Grammar

/-- Counting well-formed trees puts their productions at the end of what has been counted. -/
theorem HasCounted.countFrom {g : Grammar} {log : List Production} (h : g.HasCounted log)
    {cs : List Candidate} (hcs : ∀ c ∈ cs, c.WellFormed) (counted : Nat) :
    (g.countFrom counted (cs.map .built)).result = .ok (counted + cs.length) ∧
      (g.countFrom counted (cs.map .built)).grammar.HasCounted
        (log ++ cs.flatMap Candidate.productionList) := by
  have hcountable : ∀ source ∈ cs.map TreeSource.built, source.productions? ≠ none := by
    intro source hsource
    obtain ⟨c, hc, rfl⟩ := List.mem_map.1 hsource
    rw [TreeSource.productions?_built (hcs c hc)]
    simp
  constructor
  · rw [countFrom_result h.not_normalised hcountable, List.length_map]
  · rw [countFrom_eq, treeLog_eq h.not_normalised, ← TreeSource.log_built hcs]
    exact h.addAll fun p => TreeSource.rhs_ne_nil_of_mem_log

/-- A new grammar that counts well-formed trees has counted their productions. -/
theorem hasCounted_countTrees {cs : List Candidate} (hcs : ∀ c ∈ cs, c.WellFormed) :
    (empty.countTrees cs).result = .ok cs.length ∧
      (empty.countTrees cs).grammar.HasCounted (cs.flatMap Candidate.productionList) := by
  simpa [countTrees, countStream] using hasCounted_empty.countFrom hcs 0

/-! ## Weights -/

/-- A body is asked for by its right-hand side and its flag. -/
theorem matchesBody_iff (body body' : Body) :
    matchesBody body.rhs (some body.lexical) body' = true ↔ body' = body := by
  cases body
  cases body'
  simp only [matchesBody, Option.isNone_some, Bool.false_or, Bool.and_eq_true, decide_eq_true_eq,
    beq_iff_eq, Option.some.injEq, Body.mk.injEq]
  exact and_congr_right fun _ => eq_comm

/-- The first entry that matches a body is the entry of this body. -/
theorem find?_matchesBody (body : Body) (row : Row) :
    row.entries.find? (fun entry => matchesBody body.rhs (some body.lexical) entry.1) =
      (row.get? body).map fun tally => (body, tally) := by
  rw [Table.get?]
  induction row.entries with
  | nil => rfl
  | cons entry entries ih =>
    obtain ⟨body', tally⟩ := entry
    rw [List.find?_cons, Entries.get?, ih]
    by_cases h : body' = body
    · have hmatch := (matchesBody_iff body body').2 h
      subst h
      simp [hmatch]
    · have hnot : matchesBody body.rhs (some body.lexical) body' = false :=
        Bool.eq_false_iff.2 (mt (matchesBody_iff body body').1 h)
      simp [hnot, h]

/-- The weight that is asked for with a flag is the weight in the tally of the production. -/
theorem weight_eq_of_tally? (g : Grammar) (lhs : String) (body : Body) :
    g.weight lhs body.rhs (some body.lexical) =
      ((g.tally? (.ofBody lhs body)).map Tally.weight).getD .zero := by
  have hfind := find?_matchesBody body (g.row lhs)
  rw [weight, hfind, tally?, Production.lhs_ofBody, Production.toBody_ofBody]
  cases (g.row lhs).get? body with
  | none => rfl
  | some tally => rfl

/-- Only a lexical rule with a single symbol on the right can have a weight. -/
theorem weight_eq_zero (g : Grammar) (lhs : String) {rhs : List String} {flag : Bool}
    (h : ¬(flag = true → rhs.length = 1)) : g.weight lhs rhs (some flag) = .zero := by
  have hnone : (g.row lhs).entries.find? (fun entry => matchesBody rhs (some flag) entry.1) =
      none := by
    rw [List.find?_eq_none]
    rintro ⟨body, tally⟩ - hmatch
    simp only [matchesBody, Option.isNone_some, Bool.false_or, Bool.and_eq_true, decide_eq_true_eq,
      beq_iff_eq, Option.some.injEq] at hmatch
    obtain ⟨rfl, rfl⟩ := hmatch
    exact h body.length_of_lexical
  rw [weight, hnone]

/-- Grammars with the same counts have the same weights after estimation. -/
theorem SameCounts.weight_estimate {g h : Grammar} (hsame : g.SameCounts h) (hg : g.Consistent)
    (hh : h.Consistent) (lhs : String) (rhs : List String) (flag : Bool) :
    g.estimate.grammar.weight lhs rhs (some flag) =
      h.estimate.grammar.weight lhs rhs (some flag) := by
  rw [hg.estimate_eq, hh.estimate_eq]
  by_cases hbody : flag = true → rhs.length = 1
  · have hcount : g.symbolCount lhs = h.symbolCount lhs := by
      rw [symbolCount, symbolCount, Table.getD, Table.getD, hsame.symbolCounts]
    have hweight := fun k : Grammar => k.withQuotients.weight_eq_of_tally? lhs ⟨rhs, flag, hbody⟩
    simp only at hweight
    rw [hweight, hweight, tally?_withQuotients, tally?_withQuotients, hsame.tally,
      Production.lhs_ofBody, hcount]
  · rw [weight_eq_zero _ _ hbody, weight_eq_zero _ _ hbody]

end Grammar
end TreebankGrammar
