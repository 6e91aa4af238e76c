import TreebankGrammar.Proofs.Grammar.Tallies

/-!
# Logs of trees

Counting trees or a treebank file is counting, one by one, the productions of those trees that come
before the first failure.  These productions are the log of the trees.

Main definitions:

- `TreeSource.log`: the productions of trees, up to the first tree that cannot be counted.
- `Grammar.treeLog` and `Grammar.treebankLog`: what a grammar counts from trees or from a treebank
  file.

Main results:

- Theorem `countFrom_eq` and Theorem `countTreebank_eq`: counting adds what stands in the log.
- Theorem `countFrom_append`: trees that can be counted are counted before all later ones.
- Theorem `countFrom_result`: counting trees succeeds when all of them can be counted.
-/

namespace TreebankGrammar

/-! ## Logs of trees -/

/-- The productions of what is to be counted, if it can be counted. -/
def TreeSource.productions? (source : TreeSource) : Option (List Production) :=
  match source.candidate with
  | .error _ => none
  | .ok c =>
    match c.productions with
    | .error _ => none
    | .ok ps => some ps

/-- The productions of trees, up to the first tree that cannot be counted. -/
def TreeSource.log : List TreeSource → List Production
  | [] => []
  | source :: rest =>
    match source.productions? with
    | some ps => ps ++ log rest
    | none => []

namespace TreeSource

/-- What can be counted is a tree whose productions can be collected. -/
theorem productions?_eq_some_iff {source : TreeSource} {ps : List Production} :
    source.productions? = some ps ↔ ∃ c, source.candidate = .ok c ∧ c.productions = .ok ps := by
  rw [productions?]
  cases source.candidate with
  | error e => simp
  | ok c =>
    cases hps : c.productions with
    | error e => simp [hps]
    | ok ps' => simp [hps]

/-- A production of trees has symbols on the right. -/
theorem rhs_ne_nil_of_mem_log {sources : List TreeSource} {p : Production} (hp : p ∈ log sources) :
    p.rhs ≠ [] := by
  induction sources with
  | nil => cases hp
  | cons source rest ih =>
    rw [log] at hp
    split at hp
    · rename_i ps hps
      rcases productions?_eq_some_iff.1 hps with ⟨c, -, hcollect⟩
      rcases List.mem_append.1 hp with hp | hp
      · exact Candidate.rhs_ne_nil hcollect p hp
      · exact ih hp
    · cases hp

/-- The log of trees that can all be counted. -/
theorem log_append {sources : List TreeSource} (h : ∀ source ∈ sources, source.productions? ≠ none)
    (later : List TreeSource) : log (sources ++ later) = log sources ++ log later := by
  induction sources with
  | nil => rfl
  | cons source rest ih =>
    cases hps : source.productions? with
    | none => exact absurd hps (h source List.mem_cons_self)
    | some ps =>
      rw [List.cons_append, log, log, hps]
      dsimp only
      rw [ih fun source' hmem => h source' (List.mem_cons_of_mem source hmem), List.append_assoc]

/-- The log of groups of trees that can all be counted. -/
theorem log_flatten {groups : List (List TreeSource)}
    (h : ∀ sources ∈ groups, ∀ source ∈ sources, source.productions? ≠ none) :
    log groups.flatten = groups.flatMap log := by
  induction groups with
  | nil => rfl
  | cons sources rest ih =>
    rw [List.flatten_cons, log_append (h sources List.mem_cons_self), List.flatMap_cons,
      ih fun sources' hmem => h sources' (List.mem_cons_of_mem sources hmem)]

end TreeSource

namespace Grammar

/-- What a grammar counts from trees: nothing once its weights have been estimated. -/
def treeLog (g : Grammar) (sources : List TreeSource) : List Production :=
  if g.normalised then [] else TreeSource.log sources

/-- What a grammar counts from a treebank file: nothing if the file or one of its lines cannot be
read. -/
def treebankLog (g : Grammar) (d : Directory) (file : String) (limits : Treebank.Limits) :
    List Production :=
  match corpusLines d file with
  | .error _ => []
  | .ok stream =>
    if (corpusFailure? file limits stream).isSome then []
    else g.treeLog (((Treebank.read limits stream.lines).trees.map Tree.toCandidate).map .built)

/-- A grammar whose weights have been estimated counts nothing. -/
theorem treeLog_eq_nil {g : Grammar} (hg : g.normalised = true) (sources : List TreeSource) :
    g.treeLog sources = [] := by
  rw [treeLog, hg]
  rfl

/-- What an open grammar counts from trees. -/
theorem treeLog_eq {g : Grammar} (hg : g.normalised = false) (sources : List TreeSource) :
    g.treeLog sources = TreeSource.log sources := by
  rw [treeLog, hg]
  rfl

theorem treebankLog_eq_nil {g : Grammar} (hg : g.normalised = true) (d : Directory) (file : String)
    (limits : Treebank.Limits) : g.treebankLog d file limits = [] := by
  rw [treebankLog]
  split
  · rfl
  · rw [treeLog_eq_nil hg, ite_self]

theorem rhs_ne_nil_of_mem_treeLog {g : Grammar} {sources : List TreeSource} {p : Production}
    (hp : p ∈ g.treeLog sources) : p.rhs ≠ [] := by
  rw [treeLog] at hp
  split at hp
  · cases hp
  · exact TreeSource.rhs_ne_nil_of_mem_log hp

theorem rhs_ne_nil_of_mem_treebankLog {g : Grammar} {d : Directory} {file : String}
    {limits : Treebank.Limits} {p : Production} (hp : p ∈ g.treebankLog d file limits) :
    p.rhs ≠ [] := by
  rw [treebankLog] at hp
  split at hp
  · cases hp
  · split at hp
    · cases hp
    · exact rhs_ne_nil_of_mem_treeLog hp

/-! ## Counting -/

theorem addAll_append (g : Grammar) (ps qs : List Production) :
    g.addAll (ps ++ qs) = (g.addAll ps).addAll qs :=
  List.foldl_append

theorem normalised_addAll (g : Grammar) (ps : List Production) :
    (g.addAll ps).normalised = g.normalised := by
  rw [addAll_eq, normalised_addPairs]

/-- Counting trees adds what stands in their log, also when it fails. -/
theorem countFrom_eq (g : Grammar) (counted : Nat) (sources : List TreeSource) :
    (g.countFrom counted sources).grammar = g.addAll (g.treeLog sources) := by
  cases hg : g.normalised with
  | true =>
    rw [treeLog_eq_nil hg]
    cases sources with
    | nil => rfl
    | cons source rest =>
      rw [countFrom]
      cases source.candidate with
      | error e => rfl
      | ok c =>
        dsimp only
        rw [countTree, hg]
        rfl
  | false =>
    rw [treeLog_eq hg]
    induction sources generalizing g counted with
    | nil => rfl
    | cons source rest ih =>
      rw [countFrom, TreeSource.log, TreeSource.productions?]
      cases source.candidate with
      | error e => rfl
      | ok c =>
        dsimp only
        rw [countTree, hg]
        cases c.productions with
        | error e => rfl
        | ok ps =>
          rw [addAll_append]
          exact ih (g.addAll ps) (counted + 1) ((normalised_addAll g ps).trans hg)

/-- Counting a treebank file adds what stands in its log, also when it fails. -/
theorem countTreebank_eq (g : Grammar) (d : Directory) (file : String) (limits : Treebank.Limits) :
    (g.countTreebank d file limits).grammar = g.addAll (g.treebankLog d file limits) := by
  cases hg : g.normalised with
  | true =>
    rw [treebankLog_eq_nil hg, countTreebank, hg]
    rfl
  | false =>
    rw [countTreebank, treebankLog, hg]
    cases corpusLines d file with
    | error e => rfl
    | ok stream =>
      dsimp only
      cases corpusFailure? file limits stream with
      | some e => rfl
      | none =>
        have hcounted := g.countFrom_eq 0
          (((Treebank.read limits stream.lines).trees.map Tree.toCandidate).map .built)
        refine Eq.trans ?_ hcounted
        simp only [Bool.false_eq_true, if_false, Outcome.after, countTrees, countStream]
        split
        · rfl
        · rfl

/-- The wanted trees of a treebank file can be read if none of its lines fails and no more lines are asked
for than can be decoded. -/
theorem corpusFailure?_eq_none_iff {file : String} {limits : Treebank.Limits}
    {stream : Text.LineStream} :
    corpusFailure? file limits stream = none ↔ (Treebank.read limits stream.lines).failure = none ∧
      (stream.broken = true → Treebank.asksBeyond limits stream.lines = false) := by
  rw [corpusFailure?]
  cases (Treebank.read limits stream.lines).failure with
  | some e => simp
  | none => simp

/-- A treebank file that can be read is counted like the trees that are read from it. -/
theorem countTreebank_of_read {g : Grammar} (hg : g.normalised = false) {d : Directory}
    {file : String} {limits : Treebank.Limits} {stream : Text.LineStream}
    (hlines : corpusLines d file = .ok stream) (hread : corpusFailure? file limits stream = none) :
    (g.countTreebank d file limits).grammar =
        (g.countTrees ((Treebank.read limits stream.lines).trees.map Tree.toCandidate)).grammar ∧
      (g.countTreebank d file limits).result =
        (g.countTrees ((Treebank.read limits stream.lines).trees.map Tree.toCandidate)).result := by
  simp only [countTreebank, hg, hlines, hread, Outcome.after, Bool.false_eq_true, if_false]
  split
  · exact ⟨rfl, rfl⟩
  · exact ⟨rfl, rfl⟩

/-- On an open grammar, trees that can be counted are counted before all later ones. -/
theorem countFrom_append {g : Grammar} (hg : g.normalised = false) {sources : List TreeSource}
    (h : ∀ source ∈ sources, source.productions? ≠ none) (counted : Nat)
    (later : List TreeSource) :
    g.countFrom counted (sources ++ later) =
      (g.addAll (TreeSource.log sources)).countFrom (counted + sources.length) later := by
  induction sources generalizing g counted with
  | nil => rfl
  | cons source rest ih =>
    rw [List.forall_mem_cons] at h
    obtain ⟨ps, hps⟩ := Option.ne_none_iff_exists'.1 h.1
    obtain ⟨c, hc, hcollect⟩ := TreeSource.productions?_eq_some_iff.1 hps
    have hcount : g.countTree c = .ok (g.addAll ps, ps.length) :=
      countTree_eq_ok_iff.2 ⟨hg, ps, hcollect, rfl, rfl⟩
    rw [List.cons_append, countFrom, hc]
    dsimp only
    rw [hcount]
    dsimp only
    rw [ih ((normalised_addAll g ps).trans hg) h.2, TreeSource.log, hps, addAll_append,
      List.length_cons, Nat.add_assoc, Nat.add_comm 1]

/-- Counting trees that can all be counted succeeds on an open grammar. -/
theorem countFrom_result {g : Grammar} (hg : g.normalised = false) {sources : List TreeSource}
    (h : ∀ source ∈ sources, source.productions? ≠ none) (counted : Nat) :
    (g.countFrom counted sources).result = .ok (counted + sources.length) := by
  have hcounted := countFrom_append hg h counted []
  rw [List.append_nil] at hcounted
  rw [hcounted]
  rfl

end Grammar
end TreebankGrammar
