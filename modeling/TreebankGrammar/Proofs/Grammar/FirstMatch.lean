import TreebankGrammar.Proofs.Grammar.Logs

/-!
# Weights without a flag

Two rules of a grammar may differ only in whether they are lexical, when a string is a word in one tree
and a nonterminal in another.  A query for a weight that leaves this open is answered with the rule that
was counted first.  So the answer depends on the order of the trees, though on nothing but which of the
two rules comes first.

Main definitions:

- `Grammar.flags`: the flags with which a rule occurs in a list of productions.
- `Grammar.estimated`: the grammar that has counted trees, with estimated weights.

Main results:

- Theorem `Grammar.weight_none`: a query without a flag finds the first rule with the symbols.
- Theorem `Grammar.InOrder.weight_none`: this is the rule with the flag that occurs first.
- Theorem `Grammar.weight_estimated_of_perm`: what the order of the trees has to do with the weights.
-/

namespace TreebankGrammar

/-! ## First occurrences -/

section FirstOccurrences

variable {α : Type} [DecidableEq α]

theorem head?_eraseDups (xs : List α) : xs.eraseDups.head? = xs.head? := by
  cases xs with
  | nil => rfl
  | cons x xs =>
    rw [List.eraseDups_cons]
    rfl

/-- The first element with a property is the first one among the distinct elements. -/
theorem find?_eraseDups (P : α → Bool) (xs : List α) : xs.eraseDups.find? P = xs.find? P := by
  rw [← List.head?_filter, ← eraseDups_filter, head?_eraseDups, List.head?_filter]

end FirstOccurrences

namespace Grammar

/-! ## The first rule -/

/-- A query without a flag is answered with the first rule of the row that has the symbols. -/
theorem weight_none (g : Grammar) (lhs : String) (rhs : List String) :
    g.weight lhs rhs none =
      (((g.row lhs).keys.find? fun body => decide (body.rhs = rhs)).map fun body =>
        g.weight lhs rhs (some body.lexical)).getD .zero := by
  have hmatches : matchesBody rhs none = fun body => decide (body.rhs = rhs) := by
    funext body
    simp [matchesBody]
  rw [Table.keys, List.find?_map, weight, hmatches]
  cases hfind : (g.row lhs).entries.find? fun entry => decide (entry.1.rhs = rhs) with
  | none => rw [Function.comp_def, hfind]; rfl
  | some entry =>
    obtain ⟨body, tally⟩ := entry
    have hget : (g.row lhs).get? body = some tally :=
      ((g.row lhs).get?_eq_some_iff body tally).2 (List.mem_of_find?_eq_some hfind)
    obtain rfl : body.rhs = rhs := by simpa using List.find?_some hfind
    have htally : g.tally? (.ofBody lhs body) = some tally := hget
    rw [Function.comp_def, hfind, Option.map_some, Option.map_some, Option.getD_some,
      weight_eq_of_tally?, htally]
    rfl

/-- The flags with which a rule occurs in a list of productions, in order. -/
def flags (log : List Production) (lhs : String) (rhs : List String) : List Bool :=
  (log.filter fun p => p.lhs = lhs ∧ p.rhs = rhs).map fun p => p.lexical

/-- The first rule of a row that has the symbols is the one with the flag that occurs first. -/
theorem InOrder.head?_flags {g : Grammar} {log : List Production} (h : g.InOrder log) (lhs : String)
    (rhs : List String) :
    (flags log lhs rhs).head? =
      ((g.row lhs).keys.find? fun body => decide (body.rhs = rhs)).map Body.lexical := by
  calc (flags log lhs rhs).head?
      = ((log.filter (·.lhs = lhs)).find? fun p => decide (p.rhs = rhs)).map (·.lexical) := by
        simp only [flags, List.head?_map, List.head?_filter, List.find?_filter, decide_eq_true_eq]
    _ = (((g.row lhs).keys.map (Production.ofBody lhs)).find? fun p =>
          decide (p.rhs = rhs)).map (·.lexical) := by
        rw [h.row, find?_eraseDups]
    _ = ((g.row lhs).keys.find? fun body => decide (body.rhs = rhs)).map Body.lexical := by
        rw [List.find?_map, Option.map_map]
        rfl

/-- A query without a flag is answered with the rule whose flag occurs first, and with zero if the rule
does not occur. -/
theorem InOrder.weight_none {g : Grammar} {log : List Production} (h : g.InOrder log) (lhs : String)
    (rhs : List String) :
    g.weight lhs rhs none =
      ((flags log lhs rhs).head?.map fun flag => g.weight lhs rhs (some flag)).getD .zero := by
  rw [Grammar.weight_none, h.head?_flags, Option.map_map]
  rfl

/-- Estimated weights do not change the order. -/
theorem InOrder.withQuotients {g : Grammar} {log : List Production} (h : g.InOrder log) :
    g.withQuotients.InOrder log where
  keys := by
    rw [Grammar.withQuotients, Table.keys_map]
    exact h.keys
  row X := by
    rw [row_withQuotients, Row.withQuotients, Table.keys_map]
    exact h.row X

/-! ## Counting trees in another order -/

/-- The grammar that has counted trees, with estimated weights. -/
def estimated (trees : List Candidate) : Grammar :=
  (empty.countTrees trees).grammar.estimate.grammar

/-- The flags with which a rule occurs in trees, in order. -/
def flagsIn (trees : List Candidate) : String → List String → List Bool :=
  flags (trees.flatMap Candidate.productionList)

variable {trees trees' : List Candidate}

/-- In a grammar that has counted well-formed trees a query without a flag is answered with the rule
whose flag occurs first in them. -/
theorem weight_estimated (htrees : ∀ c ∈ trees, c.WellFormed) (lhs : String) (rhs : List String) :
    (estimated trees).weight lhs rhs none =
      ((flagsIn trees lhs rhs).head?.map fun flag =>
        (estimated trees).weight lhs rhs (some flag)).getD .zero := by
  have hpass : (empty.countTrees trees).grammar.IsPass (trees.flatMap Candidate.productionList) := by
    rw [← TreeSource.log_built htrees]
    exact isPass_countStream _
  have horder := hpass.inOrder.withQuotients
  have hestimated : estimated trees = (empty.countTrees trees).grammar.withQuotients := by
    rw [estimated, hpass.hasCounted.consistent.estimate_eq]
  rw [hestimated]
  exact horder.weight_none lhs rhs

/-- With a flag the answer does not depend on the order of the trees. -/
theorem weight_estimated_flag (htrees : ∀ c ∈ trees, c.WellFormed) (hperm : trees.Perm trees')
    (lhs : String) (rhs : List String) (flag : Bool) :
    (estimated trees').weight lhs rhs (some flag) = (estimated trees).weight lhs rhs (some flag) := by
  have hcounted := (hasCounted_countTrees htrees).2
  have hcounted' := (hasCounted_countTrees fun c hc => htrees c (hperm.mem_iff.2 hc)).2
  have hsame := hcounted'.sameCounts hcounted (hperm.flatMap_right _).symm
  exact hsame.weight_estimate hcounted'.consistent hcounted.consistent lhs rhs flag

/-- The order of the trees does not matter for which flags a rule occurs with. -/
theorem flagsIn_perm (hperm : trees.Perm trees') (lhs : String) (rhs : List String) :
    (flagsIn trees lhs rhs).Perm (flagsIn trees' lhs rhs) :=
  ((hperm.flatMap_right _).filter _).map _

/-- If flags in another order begin with another flag, both flags are there. -/
theorem both_of_head?_ne {flags flags' : List Bool} (hperm : flags.Perm flags')
    (h : flags'.head? ≠ flags.head?) :
    ∃ flag, flags.head? = some flag ∧ flags'.head? = some (!flag) ∧ ∀ other, other ∈ flags := by
  match flags, flags' with
  | [], flags' =>
    rw [← hperm.nil_eq] at h
    exact absurd rfl h
  | flag :: rest, [] => cases hperm.eq_nil
  | flag :: rest, flag' :: rest' =>
    obtain rfl : flag' = !flag := Bool.eq_not_of_ne fun heq => h (congrArg some heq)
    refine ⟨flag, rfl, rfl, fun other => ?_⟩
    by_cases hother : other = flag
    · rw [hother]
      exact List.mem_cons_self
    · rw [Bool.eq_not_of_ne hother, hperm.mem_iff]
      exact List.mem_cons_self

/-- Well-formed trees are counted in two orders, and the weights are estimated, which succeeds.  With a
flag a query has the same answer in both grammars.  Without a flag it is answered with the rule whose
flag comes first in the order of the trees, so that the answers are the same just if the same flag
comes first in both orders or both rules have the same weight.  In particular this is so if the
rule does not occur with both flags. -/
theorem weight_estimated_of_perm (htrees : ∀ c ∈ trees, c.WellFormed) (hperm : trees.Perm trees') :
    (∀ ts ∈ [trees, trees'], (empty.countTrees ts).result = .ok ts.length ∧
      (empty.countTrees ts).grammar.estimate.result = .ok ()) ∧
    ∀ lhs rhs,
      (∀ flag, (estimated trees').weight lhs rhs (some flag) =
        (estimated trees).weight lhs rhs (some flag)) ∧
      (∀ ts ∈ [trees, trees'], (estimated ts).weight lhs rhs none =
        ((flagsIn ts lhs rhs).head?.map fun flag =>
          (estimated ts).weight lhs rhs (some flag)).getD .zero) ∧
      ((estimated trees').weight lhs rhs none = (estimated trees).weight lhs rhs none ↔
        (flagsIn trees' lhs rhs).head? = (flagsIn trees lhs rhs).head? ∨
          (estimated trees).weight lhs rhs (some true) =
            (estimated trees).weight lhs rhs (some false)) ∧
      (¬(true ∈ flagsIn trees lhs rhs ∧ false ∈ flagsIn trees lhs rhs) →
        (estimated trees').weight lhs rhs none = (estimated trees).weight lhs rhs none) := by
  have htrees' : ∀ c ∈ trees', c.WellFormed := fun c hc => htrees c (hperm.mem_iff.2 hc)
  have hall : ∀ ts ∈ [trees, trees'], ∀ c ∈ ts, c.WellFormed := by
    simpa using ⟨htrees, htrees'⟩
  constructor
  · intro ts hts
    obtain ⟨hrun, hcounted⟩ := hasCounted_countTrees (hall ts hts)
    exact ⟨hrun, hcounted.consistent.estimate_result⟩
  · intro lhs rhs
    have hflag := weight_estimated_flag htrees hperm lhs rhs
    have hiff : (estimated trees').weight lhs rhs none = (estimated trees).weight lhs rhs none ↔
        (flagsIn trees' lhs rhs).head? = (flagsIn trees lhs rhs).head? ∨
          (estimated trees).weight lhs rhs (some true) =
            (estimated trees).weight lhs rhs (some false) := by
      rw [weight_estimated htrees, weight_estimated htrees']
      simp only [hflag]
      by_cases hhead : (flagsIn trees' lhs rhs).head? = (flagsIn trees lhs rhs).head?
      · simp [hhead]
      · obtain ⟨flag, hfirst, hfirst', -⟩ := both_of_head?_ne (flagsIn_perm hperm lhs rhs) hhead
        rw [hfirst, hfirst']
        cases flag with
        | false => simp
        | true => simp [eq_comm]
    refine ⟨hflag, fun ts hts => weight_estimated (hall ts hts) lhs rhs, hiff, fun hboth => ?_⟩
    refine hiff.2 (Or.inl (Classical.byContradiction fun hhead => ?_))
    obtain ⟨-, -, -, hmem⟩ := both_of_head?_ne (flagsIn_perm hperm lhs rhs) hhead
    exact hboth ⟨hmem true, hmem false⟩

/-- A tree with a word under a nonterminal. -/
def wordUnder : Candidate :=
  .node "A" [.node "B" []]

/-- A tree with a nonterminal in the place of the word. -/
def labelUnder : Candidate :=
  .node "A" [.node "B" [.node "b" []]]

/-- The word comes first. -/
def wordFirst : List Candidate :=
  [wordUnder, wordUnder, labelUnder]

/-- The same trees, but the nonterminal comes first. -/
def labelFirst : List Candidate :=
  [labelUnder, wordUnder, wordUnder]

theorem wordFirst_perm : wordFirst.Perm labelFirst := by
  change ([wordUnder, wordUnder] ++ [labelUnder]).Perm ([labelUnder] ++ [wordUnder, wordUnder])
  exact List.perm_append_comm

theorem wellFormed_wordFirst : ∀ c ∈ wordFirst, c.WellFormed := by
  have hword : wordUnder.WellFormed := ⟨[.ofBody "A" (.ofWord "B")], by decide +kernel⟩
  have hlabel : labelUnder.WellFormed :=
    ⟨[.phrasal "A" ["B"], .ofBody "B" (.ofWord "b")], by decide +kernel⟩
  simp only [wordFirst, List.forall_mem_cons]
  exact ⟨hword, hword, hlabel, by simp⟩

/-- Without a flag the answer depends on the order of the trees. -/
theorem weight_depends_on_order :
    (∀ c ∈ wordFirst, c.WellFormed) ∧ wordFirst.Perm labelFirst ∧
      (estimated wordFirst).weight "A" ["B"] none ≠ (estimated labelFirst).weight "A" ["B"] none :=
  ⟨wellFormed_wordFirst, wordFirst_perm, by decide +kernel⟩

/-- The two orders agree on the weight of a rule that occurs with one flag only. -/
theorem weight_estimated_wordFirst :
    (estimated labelFirst).weight "B" ["b"] none = (estimated wordFirst).weight "B" ["b"] none := by
  obtain ⟨-, hweight⟩ := weight_estimated_of_perm wellFormed_wordFirst wordFirst_perm
  obtain ⟨-, -, -, hone⟩ := hweight "B" ["b"]
  exact hone (by decide +kernel)

end Grammar
end TreebankGrammar
