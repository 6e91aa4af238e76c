import TreebankGrammar.Proofs.Grammar.Logs
import TreebankGrammar.Proofs.Tree.Labels

/-!
# Grammars of treebanks

The symbols of a grammar that is counted from a treebank file are labels of trees that are read, before
and after estimation.

Main results:

- Theorem `isRead_of_mem_treebankLog`: what is counted from a treebank file.
- Theorem `words_of_treebank`: the symbols of the estimated grammar of a treebank are words.
-/

namespace TreebankGrammar

/-- A production with a symbol on the right, all symbols of which are labels of trees that are read. -/
def Production.IsRead (p : Production) : Prop :=
  p.All Token.IsLabel ∧ p.rhs ≠ []

/-- The productions of a tree that is read. -/
theorem Tree.isRead_of_mem_productionList {t : Tree} (ht : ∀ l ∈ t.labels, Token.IsLabel l) :
    t.toCandidate.WellFormed ∧ ∀ p ∈ t.toCandidate.productionList, p.IsRead := by
  obtain ⟨ps, hps, hall⟩ := t.exists_productions ht fun l hl => (ht l hl).1
  refine ⟨⟨ps, hps⟩, fun p hp => ?_⟩
  rw [Candidate.productionList, hps] at hp
  exact ⟨hall p hp, Candidate.rhs_ne_nil hps p hp⟩

namespace Grammar

/-- What is counted from a treebank file are productions of trees that are read. -/
theorem isRead_of_mem_treebankLog {g : Grammar} {d : Directory} {file : String}
    {limits : Treebank.Limits} {p : Production} (hp : p ∈ g.treebankLog d file limits) :
    p.IsRead := by
  rw [treebankLog] at hp
  split at hp
  · cases hp
  · rename_i stream _
    have htrees : ∀ c ∈ (Treebank.read limits stream.lines).trees.map Tree.toCandidate,
        c.WellFormed ∧ ∀ p ∈ c.productionList, p.IsRead := by
      intro c hc
      obtain ⟨t, ht, rfl⟩ := List.mem_map.1 hc
      exact Tree.isRead_of_mem_productionList (Treebank.isLabel_of_mem_read ht)
    rw [treeLog, TreeSource.log_built fun c hc => (htrees c hc).1] at hp
    split at hp
    · cases hp
    · split at hp
      · cases hp
      · obtain ⟨c, hc, hp⟩ := List.mem_flatMap.1 hp
        exact (htrees c hc).2 p hp

/-- In the estimated grammar of a treebank file all symbols are words, and no right-hand side is
empty. -/
theorem words_of_treebank (d : Directory) (file : String) (limits : Treebank.Limits) :
    (∀ s ∈ (empty.countTreebank d file limits).grammar.estimate.grammar.symbols, Text.IsWord s) ∧
      ∀ r ∈ (empty.countTreebank d file limits).grammar.estimate.grammar.rules, r.rhs ≠ [] := by
  have hlogged := (isPass_empty.isLogged.countTreebank d file limits).estimate
  rw [List.nil_append] at hlogged
  constructor
  · intro s hs
    obtain ⟨p, hp, hs⟩ := (hlogged.mem_symbols_iff s).1 hs
    obtain ⟨⟨hlhs, hrhs⟩, -⟩ := isRead_of_mem_treebankLog hp
    rcases List.mem_cons.1 hs with rfl | hs
    · exact hlhs.isWord
    · exact (hrhs s hs).isWord
  · intro r hr
    exact (isRead_of_mem_treebankLog ((hlogged.exists_rule_iff _).1 ⟨r, hr, rfl⟩)).2

end Grammar
end TreebankGrammar
