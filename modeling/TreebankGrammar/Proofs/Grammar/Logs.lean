import TreebankGrammar.Proofs.Grammar.Order
import TreebankGrammar.Proofs.Grammar.Shards
import TreebankGrammar.Proofs.Grammar.Symbols

/-!
# Logs of grammars

The log of a grammar is the list of the productions that it has counted, one after the other.  A grammar
is determined by its log and by whether its weights have been estimated.

Main definitions:

- `Grammar.ofLog`: the grammar with a log.
- `Grammar.IsLogged`: a grammar is the one with a log, with or without estimated weights.

Main results:

- Theorem `IsLogged.countFrom`: counting trees puts their log at the end.
- Theorem `IsLogged.merge`: merging puts the logs together.
- Theorem `IsLogged.lists`: a grammar lists what stands in its log.
- Theorem `IsLogged.exists_rule_iff` and Theorem `IsLogged.mem_symbols_iff`: rules and symbols come from
  the log.
- Theorem `mergeAll_isPass`: merging contiguous shards in order is a single pass.
-/

namespace TreebankGrammar
namespace Grammar

/-- A new grammar that counts trees passes over their log. -/
theorem isPass_countStream (sources : List TreeSource) :
    (empty.countStream sources).grammar.IsPass (TreeSource.log sources) where
  eq := by rw [countStream, countFrom_eq, treeLog_eq rfl]
  rhs_ne_nil _ := TreeSource.rhs_ne_nil_of_mem_log

/-! ## Estimation -/

/-- Weights do not change the counts of a row. -/
theorem countedRow_map (X : String) (weight : Tally → Weight) (row : Row) :
    countedRow X (row.map fun _ tally => { tally with weight := weight tally }) =
      countedRow X row := by
  simp [countedRow, Table.map]

/-- Estimated weights do not change what a grammar lists. -/
theorem Lists.withQuotients {g : Grammar} {log : List Production} (h : g.Lists log) :
    g.withQuotients.Lists log where
  symbolCounts := h.symbolCounts
  keys := by
    rw [Grammar.withQuotients, Table.keys_map]
    exact h.keys
  row X := by
    rw [row_withQuotients, Row.withQuotients, countedRow_map, h.row]

/-! ## Grammars with a log -/

/-- The grammar with a log, with or without estimated weights. -/
def ofLog (log : List Production) (estimated : Bool) : Grammar :=
  if estimated then (empty.addAll log).estimate.grammar else empty.addAll log

@[simp]
theorem ofLog_true (log : List Production) : ofLog log true = (empty.addAll log).estimate.grammar :=
  if_pos rfl

@[simp]
theorem ofLog_false (log : List Production) : ofLog log false = empty.addAll log :=
  rfl

/-- A grammar is the one with a log, in which each production has symbols on the right. -/
structure IsLogged (g : Grammar) (log : List Production) : Prop where
  eq : g = ofLog log g.normalised
  rhs_ne_nil : ∀ p ∈ log, p.rhs ≠ []

namespace IsPass

variable {g : Grammar} {log : List Production}

theorem isLogged (h : g.IsPass log) : g.IsLogged log where
  eq := by
    rw [h.hasCounted.not_normalised]
    exact h.eq
  rhs_ne_nil := h.rhs_ne_nil

/-- Estimation keeps the log. -/
theorem isLogged_withQuotients (h : g.IsPass log) : g.withQuotients.IsLogged log where
  eq := by
    have hestimate : g.estimate.grammar = g.withQuotients := by
      rw [h.hasCounted.consistent.estimate_eq]
    have hnormalised : g.withQuotients.normalised = true := rfl
    rw [hnormalised, ofLog_true, ← h.eq, hestimate]
  rhs_ne_nil := h.rhs_ne_nil

end IsPass

namespace IsLogged

variable {g other : Grammar} {log log' : List Production}

/-- A grammar with a log is what one pass over it makes, or what estimation makes of this. -/
theorem exists_isPass (h : g.IsLogged log) :
    ∃ pass : Grammar, pass.IsPass log ∧ g = if g.normalised then pass.withQuotients else pass := by
  have hpass : (empty.addAll log).IsPass log := ⟨rfl, h.rhs_ne_nil⟩
  refine ⟨_, hpass, h.eq.trans ?_⟩
  rw [ofLog, hpass.hasCounted.consistent.estimate_eq]

/-- An open grammar with a log is what one pass over it makes. -/
theorem isPass (h : g.IsLogged log) (hg : g.normalised = false) : g.IsPass log where
  eq := by
    have heq := h.eq
    rwa [hg, ofLog_false] at heq
  rhs_ne_nil := h.rhs_ne_nil

/-- A grammar with a log is consistent. -/
theorem consistent (h : g.IsLogged log) : g.Consistent := by
  rcases h.exists_isPass with ⟨pass, hpass, heq⟩
  rw [heq]
  split
  · exact hpass.hasCounted.consistent.withQuotients
  · exact hpass.hasCounted.consistent

/-- A grammar lists what stands in its log. -/
theorem lists (h : g.IsLogged log) : g.Lists log := by
  rcases h.exists_isPass with ⟨pass, hpass, heq⟩
  have hlists : pass.Lists log := hpass.hasCounted.lists hpass.inOrder
  rw [heq]
  split
  · exact hlists.withQuotients
  · exact hlists

/-- Counting adds to the log of an open grammar. -/
theorem addAll (h : g.IsLogged log) {ps : List Production} (hps : ∀ p ∈ ps, p.rhs ≠ [])
    (hopen : g.normalised = true → ps = []) : (g.addAll ps).IsLogged (log ++ ps) := by
  cases hg : g.normalised with
  | true =>
    rw [hopen hg, List.append_nil]
    exact h
  | false => exact ((h.isPass hg).addAll hps).isLogged

/-- Merging puts the log of the other grammar at the end. -/
theorem merge (h : g.IsLogged log) (hother : other.IsLogged log') {merged : Grammar}
    (hrun : g.merge other = .ok merged) : merged.IsLogged (log ++ log') := by
  obtain ⟨hg, hg', -, -⟩ := merge_eq_ok_iff.1 hrun
  obtain ⟨merged', hmerge, hpass⟩ := (h.isPass hg).merge (hother.isPass hg')
  rw [hrun] at hmerge
  rw [Except.ok.inj hmerge]
  exact hpass.isLogged

/-- Counting trees puts their log at the end, also when it fails. -/
theorem countFrom (h : g.IsLogged log) (counted : Nat) (sources : List TreeSource) :
    (g.countFrom counted sources).grammar.IsLogged (log ++ g.treeLog sources) := by
  rw [countFrom_eq]
  exact h.addAll (fun p => rhs_ne_nil_of_mem_treeLog) fun hg => treeLog_eq_nil hg sources

/-- Counting a treebank file puts its log at the end, also when it fails. -/
theorem countTreebank (h : g.IsLogged log) (d : Directory) (file : String)
    (limits : Treebank.Limits) :
    (g.countTreebank d file limits).grammar.IsLogged (log ++ g.treebankLog d file limits) := by
  rw [countTreebank_eq]
  exact h.addAll (fun p => rhs_ne_nil_of_mem_treebankLog) fun hg =>
    treebankLog_eq_nil hg d file limits

/-- Estimation keeps the log. -/
theorem estimate (h : g.IsLogged log) : g.estimate.grammar.IsLogged log := by
  rcases h.exists_isPass with ⟨pass, hpass, heq⟩
  cases hg : g.normalised with
  | false =>
    rw [hg, if_neg Bool.false_ne_true] at heq
    rw [heq, hpass.hasCounted.consistent.estimate_eq]
    exact hpass.isLogged_withQuotients
  | true =>
    rw [h.consistent.estimate_eq, h.consistent.withQuotients_eq_self hg]
    exact h

end IsLogged

/-- The grammar of a treebank file has the log of the file. -/
theorem isLogged_ofTreebank (d : Directory) (file : String) (limits : Treebank.Limits)
    (normalise : Bool) :
    (ofTreebank d file limits normalise).grammar.IsLogged (empty.treebankLog d file limits) := by
  have hcounted := isPass_empty.isLogged.countTreebank d file limits
  rw [List.nil_append] at hcounted
  unfold ofTreebank
  dsimp only
  split
  · exact hcounted
  · split
    · exact hcounted.estimate
    · exact hcounted

/-! ## Rules and symbols -/

namespace IsLogged

variable {g : Grammar} {log : List Production}

/-- A grammar has a tally of each production in its log and of no other. -/
theorem exists_tally?_iff (h : g.IsLogged log) (p : Production) :
    (∃ tally, g.tally? p = some tally) ↔ p ∈ log := by
  rcases h.exists_isPass with ⟨pass, hpass, heq⟩
  have hcounted : (∃ tally, pass.tally? p = some tally) ↔ p ∈ log := by
    rw [hpass.hasCounted.tally]
    by_cases hp : p ∈ log
    · simp [hp]
    · simp [hp]
  rw [heq]
  split
  · rw [tally?_withQuotients]
    simpa [Option.map_eq_some_iff] using hcounted
  · exact hcounted

/-- The productions of the rules are those in the log. -/
theorem exists_rule_iff (h : g.IsLogged log) (p : Production) :
    (∃ r ∈ g.rules, r.toProduction = p) ↔ p ∈ log := by
  rw [← h.exists_tally?_iff]
  constructor
  · rintro ⟨r, hr, rfl⟩
    rcases mem_rules_iff.1 hr with ⟨tally, htally, -⟩
    exact ⟨tally, htally⟩
  · rintro ⟨tally, htally⟩
    exact ⟨.ofProduction p tally.weight, mem_rules_iff.2 ⟨tally, htally, rfl⟩, rfl⟩

/-- The nonterminals are the left-hand sides in the log. -/
theorem mem_nonterminals_iff (h : g.IsLogged log) (s : String) :
    s ∈ g.nonterminals ↔ ∃ p ∈ log, p.lhs = s := by
  rw [Grammar.mem_nonterminals_iff, h.lists.keys, Table.keys, h.lists.symbolCounts, occurrences]
  simp [Function.comp_def]

/-- The symbols are those of the productions in the log. -/
theorem mem_symbols_iff (h : g.IsLogged log) (s : String) :
    s ∈ g.symbols ↔ ∃ p ∈ log, s ∈ p.lhs :: p.rhs := by
  rw [Grammar.mem_symbols_iff, ← Grammar.mem_nonterminals_iff, h.mem_nonterminals_iff]
  constructor
  · rintro (⟨p, hp, rfl⟩ | ⟨r, hr, hs⟩)
    · exact ⟨p, hp, List.mem_cons_self⟩
    · exact ⟨r.toProduction, (h.exists_rule_iff _).1 ⟨r, hr, rfl⟩, List.mem_cons_of_mem _ hs⟩
  · rintro ⟨p, hp, hs⟩
    rcases List.mem_cons.1 hs with rfl | hs
    · exact Or.inl ⟨p, hp, rfl⟩
    · rcases (h.exists_rule_iff p).2 hp with ⟨r, hr, rfl⟩
      exact Or.inr ⟨r, hr, hs⟩

end IsLogged

/-! ## Shards -/

/-- Merging contiguous shards in order, in whatever grouping, makes the very grammar of a single
pass. -/
theorem mergeAll_isPass {n : Nat} {logs : Fin n → List Production} {grammars : Fin n → Grammar}
    (h : ∀ i, (grammars i).IsPass (logs i)) {steps : List (Fin n × Fin n)} {result : Fin n}
    (hresult : shardsIn steps result = List.finRange n) :
    ∃ merged, mergeAll grammars steps = .ok merged ∧
      (merged result).IsPass ((List.finRange n).flatMap logs) := by
  have hstart : ∀ i, (grammars i).IsPass ([i].flatMap logs) := by
    intro i
    rw [List.flatMap_singleton]
    exact h i
  rcases mergeAll_of_merge IsPass.merge hstart steps with ⟨merged, hmerge, hpass⟩
  refine ⟨merged, hmerge, ?_⟩
  rw [← hresult]
  exact hpass result

end Grammar
end TreebankGrammar
