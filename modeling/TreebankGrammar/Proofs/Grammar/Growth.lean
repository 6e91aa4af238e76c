import TreebankGrammar.Proofs.Grammar.Logs
import TreebankGrammar.Proofs.Tree.Productions
import TreebankGrammar.Proofs.Workspace.Runs

/-!
# Grammars grown from trees

A grammar grows from trees: those that it has counted and those of the grammars that have been merged
into it.  Its log is made of their productions.  Every grammar of a run has grown from trees.

Main definitions:

- `Grammar.Grown`: a grammar has grown from a list of trees.
- `TreeSource.countedTrees` and `Grammar.treebankTrees`: the trees that are counted from a sequence or
  from a treebank file.

Main results:

- Theorem `Grammar.Grown.isLogged`: the log of a grammar that has grown from trees.
- Theorem `Grammar.Grown.countFrom` and Theorem `Grammar.Grown.countTreebank`: counting many trees grows
  a grammar from those of them that are counted.
- Theorem `Workspace.Reachable.exists_grown`: the grammars of a run have grown from trees.
-/

namespace TreebankGrammar
namespace Grammar

/-- A grammar has grown from trees by counting, merging and estimation.  The trees stand in the order
in which they have been counted, those of a grammar that was merged at the end. -/
inductive Grown : Grammar → List Tree → Prop
  | empty : Grown .empty []
  | countTree {g g' : Grammar} {ts : List Tree} {t : Tree} {n : Nat} (h : Grown g ts)
      (hrun : g.countTree t.toCandidate = .ok (g', n)) : Grown g' (ts ++ [t])
  | merge {g other g' : Grammar} {ts us : List Tree} (h : Grown g ts) (hother : Grown other us)
      (hrun : g.merge other = .ok g') : Grown g' (ts ++ us)
  | estimate {g : Grammar} {ts : List Tree} (h : Grown g ts) : Grown g.estimate.grammar ts

/-- An open grammar grows by a tree without empty labels. -/
theorem Grown.addTree {g : Grammar} {ts : List Tree} (h : g.Grown ts) (hg : g.normalised = false)
    {t : Tree} (ht : ∀ l ∈ t.labels, l ≠ "") : (g.addAll t.productions).Grown (ts ++ [t]) := by
  obtain ⟨ps, hps, -⟩ := t.exists_productions (P := fun _ => True) (by simp) ht
  obtain rfl := Tree.eq_productions hps
  exact h.countTree (countTree_eq_ok_iff.2 ⟨hg, _, hps, rfl, rfl⟩)

/-- Counting a tree puts its productions at the end of the log. -/
theorem IsLogged.countTree {g g' : Grammar} {log : List Production} {t : Tree} {n : Nat}
    (h : g.IsLogged log) (hrun : g.countTree t.toCandidate = .ok (g', n)) :
    g'.IsLogged (log ++ t.productions) := by
  obtain ⟨hg, ps, hps, rfl, -⟩ := countTree_eq_ok_iff.1 hrun
  obtain rfl := Tree.eq_productions hps
  refine h.addAll (Candidate.rhs_ne_nil hps) fun hnormalised => ?_
  rw [hg] at hnormalised
  cases hnormalised

/-- The log of a grammar that has grown from trees holds the productions of these trees. -/
theorem Grown.isLogged {g : Grammar} {ts : List Tree} (h : g.Grown ts) :
    g.IsLogged (ts.flatMap Tree.productions) := by
  induction h with
  | empty => exact isPass_empty.isLogged
  | countTree _ hrun ih =>
    rw [List.flatMap_append, List.flatMap_singleton]
    exact ih.countTree hrun
  | merge _ _ hrun ih ihother =>
    rw [List.flatMap_append]
    exact ih.merge ihother hrun
  | estimate _ ih => exact ih.estimate

end Grammar

/-! ## Counting many trees -/

mutual

/-- A tree that is offered as a tree is taken for this tree. -/
theorem Tree.toTree?_toCandidate (t : Tree) : t.toCandidate.toTree? = some t := by
  match t with
  | .node l cs =>
    rw [toCandidate, Candidate.toTree?, toTrees?_toCandidates cs]
    rfl

theorem Tree.toTrees?_toCandidates (ts : List Tree) :
    Candidate.toTrees? (toCandidates ts) = some ts := by
  match ts with
  | [] => rfl
  | t :: ts =>
    rw [toCandidates, Candidate.toTrees?, toTree?_toCandidate t, toTrees?_toCandidates ts]
    rfl

end

/-- The trees that are counted from a sequence, up to the first one that cannot be counted. -/
def TreeSource.countedTrees : List TreeSource → List Tree
  | [] => []
  | source :: rest =>
    match source.candidate with
    | .error _ => []
    | .ok c =>
      match c.productions, c.toTree? with
      | .ok _, some t => t :: countedTrees rest
      | _, _ => []

namespace Grammar

/-- Counting trees grows a grammar from those that come before the first one that cannot be counted. -/
theorem Grown.countFrom {g : Grammar} {ts : List Tree} (h : g.Grown ts) (hg : g.normalised = false)
    (counted : Nat) (sources : List TreeSource) :
    (g.countFrom counted sources).grammar.Grown (ts ++ TreeSource.countedTrees sources) := by
  induction sources generalizing g ts counted with
  | nil =>
    rw [TreeSource.countedTrees, List.append_nil]
    exact h
  | cons source rest ih =>
    rw [Grammar.countFrom, TreeSource.countedTrees]
    cases source.candidate with
    | error e =>
      rw [List.append_nil]
      exact h
    | ok c =>
      dsimp only
      cases hps : c.productions with
      | error e =>
        rw [Grammar.countTree, hg, hps, List.append_nil]
        exact h
      | ok ps =>
        obtain ⟨t, rfl⟩ := Candidate.exists_toCandidate hps
        have hrun : g.countTree t.toCandidate = .ok (g.addAll ps, ps.length) :=
          countTree_eq_ok_iff.2 ⟨hg, ps, hps, rfl, rfl⟩
        have hrest := ih (h.countTree hrun) ((normalised_addAll g ps).trans hg) (counted + 1)
        rw [hrun, t.toTree?_toCandidate]
        rwa [List.append_assoc] at hrest

/-- The trees that are counted from a treebank file: all wanted ones if the file can be read. -/
def treebankTrees (d : Directory) (file : String) (limits : Treebank.Limits) : List Tree :=
  match corpusLines d file with
  | .error _ => []
  | .ok stream =>
    if (corpusFailure? file limits stream).isSome then []
    else (Treebank.read limits stream.lines).trees

/-- The trees of a treebank can be counted. -/
theorem productions_of_mem_read {limits : Treebank.Limits} {lines : List String} {t : Tree}
    (h : t ∈ (Treebank.read limits lines).trees) : ∃ ps, t.toCandidate.productions = .ok ps := by
  have hlabels : ∀ l ∈ t.labels, l ≠ "" := fun l hl => (Treebank.isLabel_of_mem_read h l hl).1
  obtain ⟨ps, hps, -⟩ := Tree.exists_productions hlabels hlabels
  exact ⟨ps, hps⟩

/-- Trees that can be counted are counted. -/
theorem countedTrees_built {ts : List Tree}
    (h : ∀ t ∈ ts, ∃ ps, t.toCandidate.productions = .ok ps) :
    TreeSource.countedTrees ((ts.map Tree.toCandidate).map .built) = ts := by
  induction ts with
  | nil => rfl
  | cons t ts ih =>
    obtain ⟨⟨ps, hps⟩, hts⟩ := List.forall_mem_cons.1 h
    rw [List.map_cons, List.map_cons, TreeSource.countedTrees, TreeSource.candidate]
    dsimp only
    rw [hps, t.toTree?_toCandidate, ih hts]

/-- Counting a treebank file grows a grammar from the trees that are counted from it. -/
theorem Grown.countTreebank {g : Grammar} {ts : List Tree} (h : g.Grown ts)
    (hg : g.normalised = false) (d : Directory) (file : String) (limits : Treebank.Limits) :
    (g.countTreebank d file limits).grammar.Grown (ts ++ treebankTrees d file limits) := by
  cases hlines : corpusLines d file with
  | error e =>
    rw [Grammar.countTreebank, hg, treebankTrees, hlines, List.append_nil]
    exact h
  | ok stream =>
    cases hread : corpusFailure? file limits stream with
    | some e =>
      rw [Grammar.countTreebank, hg, treebankTrees, hlines]
      simp [hread, Outcome.after, Outcome.error, h]
    | none =>
      have hcounted := h.countFrom hg 0
        (((Treebank.read limits stream.lines).trees.map Tree.toCandidate).map .built)
      rw [countedTrees_built fun t => productions_of_mem_read] at hcounted
      rw [(countTreebank_of_read hg hlines hread).1, treebankTrees, hlines]
      simp only [hread]
      exact hcounted

/-! ## Runs -/

/-- To have grown from trees is an invariant of the operations on grammars. -/
theorem invariant_exists_grown : Invariant fun g => ∃ ts, g.Grown ts where
  empty := ⟨[], .empty⟩
  countTree := by
    rintro g c g' n ⟨ts, h⟩ hrun
    obtain ⟨-, ps, hps, -⟩ := countTree_eq_ok_iff.1 hrun
    obtain ⟨t, rfl⟩ := Candidate.exists_toCandidate hps
    exact ⟨ts ++ [t], h.countTree hrun⟩
  merge := by
    rintro g other g' ⟨ts, h⟩ ⟨us, hother⟩ hrun
    exact ⟨ts ++ us, h.merge hother hrun⟩
  estimate := by
    rintro g ⟨ts, h⟩
    exact ⟨ts, h.estimate⟩

end Grammar

/-- After every run each grammar has grown from trees. -/
theorem Workspace.Reachable.exists_grown {w : Workspace} (h : w.Reachable) {g : Grammar}
    (hg : g ∈ w.grammars) : ∃ ts, g.Grown ts :=
  h.satisfies Grammar.invariant_exists_grown g hg

end TreebankGrammar
