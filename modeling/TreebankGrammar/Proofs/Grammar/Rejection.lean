import TreebankGrammar.Grammar.Estimation
import TreebankGrammar.Proofs.Grammar.TreeLogs
import TreebankGrammar.Proofs.Tree.Malformed

/-!
# Candidates that are not counted

A grammar rejects a candidate if it takes no more counts or the candidate is malformed.  All other
candidates are counted node by node.  Counting a list stops at the first candidate that is rejected,
and those before it stay counted.

Main definitions:

- `Grammar.Rejects`: a candidate that is not counted.
- `Grammar.CountsEach`: each production of a list is counted once more.

Main results:

- Theorem `Grammar.exists_countTree_eq_error_iff`: which candidates are not counted.
- Theorem `Grammar.exists_countTree`: all others are counted node by node.
- Theorem `Grammar.countTrees_of_rejects`: counting stops at the first candidate that is rejected.
- Theorem `Grammar.exists_countTree_eq_malformed`: a malformed candidate is reported as such if what
  is no tree in it can be shown.
- Theorem `Grammar.counts_unless_malformed`: what is collected and counted from candidates.
- Theorem `Grammar.countTree_exceptions`: errors that do not report what is malformed.
-/

namespace TreebankGrammar
namespace Grammar

/-! ## One candidate -/

/-- A grammar rejects what is malformed, and everything once its weights have been estimated. -/
def Rejects (g : Grammar) (c : Candidate) : Prop :=
  g.normalised = true ∨ c.IsMalformed

/-- Each production of a list has been counted once more, for its nonterminal and for itself, and nothing
else has changed. -/
structure CountsEach (g : Grammar) (ps : List Production) (g' : Grammar) : Prop where
  symbolCounts : ∀ X, g'.symbolCounts.get? X =
    if X ∈ ps.map (·.lhs) then some (g.symbolCount X + (ps.countP (·.lhs = X) : Int))
    else g.symbolCounts.get? X
  tally : ∀ p, g'.tally? p =
    if p ∈ ps then some (Tally.add (ps.count p : Int) (g.tally? p)) else g.tally? p
  normalised : g'.normalised = g.normalised

theorem countsEach_addAll (g : Grammar) (ps : List Production) : g.CountsEach ps (g.addAll ps) where
  symbolCounts := g.symbolCounts_addAll ps
  tally := g.tally?_addAll ps
  normalised := g.normalised_addAll ps

/-- The candidates that are rejected are those that are not counted. -/
theorem exists_countTree_eq_error_iff (g : Grammar) (c : Candidate) :
    (∃ e, g.countTree c = .error e) ↔ g.Rejects c := by
  rw [Rejects, ← c.exists_productions_eq_error_iff, countTree]
  cases g.normalised with
  | true => simp
  | false =>
    cases c.productions with
    | error e => simp
    | ok ps => simp

/-- A candidate that is not rejected has its productions counted. -/
theorem exists_countTree {g : Grammar} {c : Candidate} (h : ¬g.Rejects c) :
    ∃ ps g', c.productions = .ok ps ∧ g.countTree c = .ok (g', c.inner.length) ∧
      g.CountsEach ps g' := by
  rw [Rejects, not_or, Bool.not_eq_true] at h
  obtain ⟨ps, hps, hnodes⟩ := Candidate.exists_productions h.2
  refine ⟨ps, g.addAll ps, hps, ?_, g.countsEach_addAll ps⟩
  exact countTree_eq_ok_iff.2 ⟨h.1, ps, hps, rfl, hnodes.length_eq⟩

/-! ## Lists of candidates -/

/-- A candidate that is rejected when its turn comes ends the counting. -/
theorem countFrom_of_error {g : Grammar} {c : Candidate} {e : Error} (h : g.countTree c = .error e)
    (counted : Nat) (later : List TreeSource) :
    g.countFrom counted (.built c :: later) = .error g e := by
  rw [countFrom, TreeSource.candidate]
  dsimp only
  rw [h]

/-- Counting a list stops at the first candidate that is rejected, and those before it stay counted. -/
theorem countTrees_of_rejects {g : Grammar} {before after : List Candidate} {c : Candidate}
    (hbefore : ∀ d ∈ before, ¬g.Rejects d) (hc : g.Rejects c) :
    ∃ e, (g.countTrees (before ++ c :: after)).result = .error e ∧
      (g.countTrees (before ++ c :: after)).grammar = (g.countTrees before).grammar ∧
      (g.countTrees before).result = .ok before.length := by
  simp only [countTrees, countStream, List.map_append, List.map_cons]
  cases hg : g.normalised with
  | true =>
    -- Everything is rejected, so that no candidate comes before this one.
    have hnil : before = [] := by
      refine List.eq_nil_iff_forall_not_mem.2 fun d hd => ?_
      exact hbefore d hd (.inl hg)
    obtain ⟨e, he⟩ := (exists_countTree_eq_error_iff g c).2 hc
    subst hnil
    refine ⟨e, ?_⟩
    rw [List.map_nil, List.nil_append, countFrom_of_error he]
    exact ⟨rfl, rfl, rfl⟩
  | false =>
    have hcountable : ∀ source ∈ before.map TreeSource.built, source.productions? ≠ none := by
      intro source hsource
      obtain ⟨d, hd, rfl⟩ := List.mem_map.1 hsource
      obtain ⟨ps, -, hps, -⟩ := exists_countTree (hbefore d hd)
      rw [TreeSource.productions?_eq_some_iff.2 ⟨d, rfl, hps⟩]
      exact Option.some_ne_none ps
    have hrejects : (g.addAll (TreeSource.log (before.map .built))).Rejects c := by
      rw [Rejects, normalised_addAll]
      exact hc
    obtain ⟨e, he⟩ := (exists_countTree_eq_error_iff _ c).2 hrejects
    refine ⟨e, ?_⟩
    rw [countFrom_append hg hcountable, countFrom_of_error he]
    refine ⟨rfl, ?_, ?_⟩
    · rw [countFrom_eq, treeLog_eq hg]
      rfl
    · rw [countFrom_result hg hcountable, List.length_map, Nat.zero_add]

/-! ## What is collected and counted -/

/-- An open grammar reports a malformed candidate as such, if what is no tree in it can be shown. -/
theorem exists_countTree_eq_malformed {g : Grammar} (hg : g.normalised = false) {c : Candidate}
    (hc : c.IsMalformed) (hshow : c.IsShowable) :
    ∃ cause, g.countTree c = .error (.malformed cause) := by
  obtain ⟨cause, hcause⟩ := Candidate.exists_productions_eq_malformed hc hshow
  refine ⟨cause, ?_⟩
  rw [countTree, hg, hcause]
  rfl

/-- The productions of a candidate can be collected unless it is malformed, and then there is one for
each node with children, in preorder.  The error names the defect if what is no tree in it can be
shown.  Counting the candidate fails and changes nothing, or it counts each of these productions once
more and returns their number.  Counting a list of candidates fails at the first one that cannot be
counted, after exactly those before it have been counted. -/
theorem counts_unless_malformed :
    (∀ c : Candidate, ((∃ e, c.productions = .error e) ↔ c.IsMalformed) ∧
      (c.IsMalformed → c.IsShowable → ∃ cause, c.productions = .error (.malformed cause)) ∧
      (¬c.IsMalformed →
        ∃ ps, c.productions = .ok ps ∧ List.Forall₂ Candidate.IsRewrittenBy c.inner ps)) ∧
    (∀ (g : Grammar) (c : Candidate), ((∃ e, g.countTree c = .error e) ↔ g.Rejects c) ∧
      (g.Rejects c → (g.countTrees [c]).grammar = g) ∧
      (g.normalised = false → c.IsMalformed → c.IsShowable →
        ∃ cause, g.countTree c = .error (.malformed cause)) ∧
      (¬g.Rejects c → ∃ ps g', c.productions = .ok ps ∧
        g.countTree c = .ok (g', c.inner.length) ∧ g.CountsEach ps g')) ∧
    ∀ (g : Grammar) (before after : List Candidate) (c : Candidate),
      (∀ d ∈ before, ¬g.Rejects d) → g.Rejects c →
      ∃ e, (g.countTrees (before ++ c :: after)).result = .error e ∧
        (g.countTrees (before ++ c :: after)).grammar = (g.countTrees before).grammar ∧
        (g.countTrees before).result = .ok before.length := by
  refine ⟨fun c => ⟨c.exists_productions_eq_error_iff, Candidate.exists_productions_eq_malformed,
      Candidate.exists_productions⟩,
    fun g c => ⟨exists_countTree_eq_error_iff g c, fun hc => ?_,
      fun hg => exists_countTree_eq_malformed hg, exists_countTree⟩,
    fun g before after c => countTrees_of_rejects⟩
  obtain ⟨e, -, hgrammar, -⟩ := @countTrees_of_rejects g [] [] c (by simp) hc
  exact hgrammar

/-- A list of a tree with a bare word inside, as it is offered by mistake. -/
def bareWord : Candidate :=
  .list [.node "NP" [.text "dog"]]

/-- Such a list cannot be refused with a message that shows it. -/
theorem refused_bareWord (cause : String → Malformed) :
    bareWord.refused cause = .unshown (.noTree "str") := by
  simp [bareWord, Candidate.list, Candidate.refused, Candidate.shown, Candidate.toTree?,
    Candidate.toTrees?, Candidate.firstType?, Candidate.firstTypeIn?, bind, Except.bind]

/-- Two exceptions.  What is no tree and cannot be shown is malformed, at the top and as a child, but the
error is another one.  A normalised grammar counts no tree before the first one that is malformed. -/
theorem countTree_exceptions :
    (bareWord.IsMalformed ∧ bareWord.productions = .error (.unshown (.noTree "str"))) ∧
    ((Candidate.node "S" [bareWord]).IsMalformed ∧
      (Candidate.node "S" [bareWord]).productions = .error (.unshown (.noTree "str"))) ∧
    empty.estimate.grammar.countTrees [.node "S" [.node "a" []], .text "x"] =
      .error empty.estimate.grammar .frozen := by
  have hchild : bareWord ∈ (Candidate.node "S" [bareWord]).parts :=
    List.mem_cons_of_mem _ (Candidate.mem_partsAll_of_mem List.mem_cons_self)
  refine ⟨⟨.inl trivial, ?_⟩, ⟨.inr ⟨List.cons_ne_nil _ _, bareWord, hchild, trivial⟩, ?_⟩, ?_⟩
  · rw [← refused_bareWord .notTree]
    exact Candidate.collect.eq_3 ..
  · rw [← refused_bareWord (.childNotTree "S")]
    simp [Candidate.productions, Candidate.collect, Candidate.checkNode, bareWord, Candidate.list,
      Candidate.checkChild]
  · have hfrozen : empty.estimate.grammar.countTree (.node "S" [.node "a" []]) = .error .frozen :=
      if_pos (by decide +kernel)
    exact countFrom_of_error hfrozen 0 [.built (.text "x")]

end Grammar
end TreebankGrammar
