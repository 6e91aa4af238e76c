import TreebankGrammar.Proofs.Grammar.Logs
import TreebankGrammar.Proofs.Workspace.Runs

/-!
# Logs of runs

A run of commands is recorded by one log for each grammar that it has made: the productions of the trees
that the grammar has counted, and, for each merge that goes well, the log that the other grammar has at
that moment, which may be its own.  After every run each grammar is the one with its log, in the
order of the log, whatever counting and merging have led to it.

Main definitions:

- `Workspace.record`: the logs after a command.
- `Workspace.Recorded`: a run leads to a workspace and records logs.
- `Workspace.IsLogged`: all grammars of a workspace are those with given logs.

Main results:

- Theorem `Workspace.IsLogged.execute`: a command leads to the grammars with the logs after it.
- Theorem `Workspace.Reachable.exists_recorded`: every run records logs.
- Theorem `Workspace.Recorded.grammar_of_log`: each grammar is determined by its log.
-/

namespace TreebankGrammar

namespace Workspace

/-! ## Logs after commands -/

/-- Puts productions at the end of the log of the grammar with a name. -/
def extendLog (w : Workspace) (logs : Nat → List Production) (name : String)
    (later : Grammar → List Production) : Nat → List Production :=
  match w.grammarNames.get? name with
  | some i => Function.update logs i (logs i ++ later (w.grammarAt i))
  | none => logs

/-- The logs after a command, given those before it, at the positions of the grammars: a new grammar
has an empty log, trees that are counted put their productions at the end, and so does a merge that
goes well with the log of the other grammar. -/
def record (w : Workspace) (logs : Nat → List Production) (command : Command) :
    Nat → List Production :=
  match command with
  | .newGrammar _ => Function.update logs w.grammars.size []
  | .countTree g source => w.extendLog logs g fun grammar => grammar.treeLog [source]
  | .countTrees g sources => w.extendLog logs g fun grammar => grammar.treeLog sources
  | .countTreebank g file limits =>
    w.extendLog logs g fun grammar => grammar.treebankLog w.directory file limits
  | .loadTreebank _ file limits _ =>
    match (w.execute command).result with
    | .ok _ => Function.update logs w.grammars.size (Grammar.empty.treebankLog w.directory file limits)
    | .error _ => logs
  | .merge g other =>
    match (w.execute command).result, w.grammarNames.get? other with
    | .ok _, some j => w.extendLog logs g fun _ => logs j
    | _, _ => logs
  | _ => logs

/-- The workspaces that runs without direct writes lead to, with the logs of their grammars. -/
inductive Recorded : Workspace → (Nat → List Production) → Prop
  | start (d : Directory) : Recorded { directory := d } fun _ => []
  | execute {w : Workspace} {logs : Nat → List Production} {command : Command}
      (hcommand : command.isDirectWrite = false) (hw : Recorded w logs) :
      Recorded (w.execute command).workspace (w.record logs command)
  | changeFiles {w : Workspace} {logs : Nat → List Production} (d : Directory)
      (hw : Recorded w logs) : Recorded { w with directory := d } logs

/-- All grammars of a workspace are those with given logs, and names stand for grammars. -/
structure IsLogged (w : Workspace) (logs : Nat → List Production) : Prop where
  position_lt : ∀ name i, w.grammarNames.get? name = some i → i < w.grammars.size
  grammarAt : ∀ i, (w.grammarAt i).IsLogged (logs i)

namespace IsLogged

variable {w : Workspace} {logs : Nat → List Production}

theorem of_kept (h : w.IsLogged logs) {w' : Workspace} (hkept : w.Kept w') : w'.IsLogged logs where
  position_lt := by
    rw [hkept.grammars, hkept.grammarNames]
    exact h.position_lt
  grammarAt i := by
    rw [Workspace.grammarAt, hkept.grammars]
    exact h.grammarAt i

theorem addGrammar (h : w.IsLogged logs) {g : Grammar} {log : List Production}
    (hg : g.IsLogged log) (name : String) :
    (w.addGrammar name g).IsLogged (Function.update logs w.grammars.size log) where
  position_lt name' i hi := by
    rw [Workspace.addGrammar, Table.get?_insert] at hi
    rw [Workspace.addGrammar, Array.size_push]
    split at hi
    · rw [Option.some.injEq] at hi
      omega
    · exact Nat.lt_succ_of_lt (h.position_lt name' i hi)
  grammarAt i := by
    have hold := h.grammarAt i
    rw [Workspace.grammarAt] at hold ⊢
    rw [Workspace.addGrammar]
    by_cases hi : i = w.grammars.size
    · subst hi
      simpa using hg
    · rw [Function.update_of_ne hi]
      simpa [Array.getElem?_push, hi] using hold

theorem setGrammar (h : w.IsLogged logs) {g : Grammar} {log : List Production}
    (hg : g.IsLogged log) {name : String} {i : Nat} (hi : w.grammarNames.get? name = some i) :
    (w.setGrammar name g).IsLogged (Function.update logs i log) := by
  have hlt := h.position_lt name i hi
  rw [Workspace.setGrammar, hi]
  constructor
  · intro name' j hj
    rw [Array.size_setIfInBounds]
    exact h.position_lt name' j hj
  · intro j
    have hold := h.grammarAt j
    rw [Workspace.grammarAt] at hold ⊢
    by_cases hj : j = i
    · subst hj
      simpa [hlt] using hg
    · rw [Function.update_of_ne hj]
      simpa [Array.getElem?_setIfInBounds, Ne.symm hj] using hold

/-- The log of one grammar may be replaced by another one that the grammar has as well. -/
theorem update (h : w.IsLogged logs) {i : Nat} {log : List Production}
    (hlog : (w.grammarAt i).IsLogged log) : w.IsLogged (Function.update logs i log) where
  position_lt := h.position_lt
  grammarAt j := by
    by_cases hj : j = i
    · subst hj
      rw [Function.update_self]
      exact hlog
    · rw [Function.update_of_ne hj]
      exact h.grammarAt j

theorem withGrammar (h : w.IsLogged logs) {name : String} {next : Grammar → Response}
    (hnext : ∀ i, w.grammarNames.get? name = some i →
      (next (w.grammarAt i)).workspace.IsLogged logs) :
    (w.withGrammar name next).workspace.IsLogged logs := by
  unfold Workspace.withGrammar Workspace.grammar?
  cases hi : w.grammarNames.get? name with
  | none => exact h
  | some i => exact hnext i hi

theorem extendLog (h : w.IsLogged logs) {name : String} {next : Grammar → Response}
    {later : Grammar → List Production}
    (hnext : ∀ i, w.grammarNames.get? name = some i → (next (w.grammarAt i)).workspace.IsLogged
      (Function.update logs i (logs i ++ later (w.grammarAt i)))) :
    (w.withGrammar name next).workspace.IsLogged (w.extendLog logs name later) := by
  unfold Workspace.withGrammar Workspace.grammar? Workspace.extendLog
  cases hi : w.grammarNames.get? name with
  | none => exact h
  | some i => exact hnext i hi

/-- A merge puts the log of the other grammar at the end if it goes well. -/
theorem merge (h : w.IsLogged logs) (g other : String) :
    (w.execute (.merge g other)).workspace.IsLogged (w.record logs (.merge g other)) := by
  simp only [Workspace.record, Workspace.execute, Workspace.withGrammar, Workspace.grammar?]
  cases hi : w.grammarNames.get? g with
  | none => exact h
  | some i =>
    cases hj : w.grammarNames.get? other with
    | none => exact h
    | some j =>
      simp only [Option.map_some]
      cases hrun : (w.grammarAt i).merge (w.grammarAt j) with
      | error e => exact h
      | ok merged =>
        simp only [Workspace.answer, Workspace.extendLog, hi]
        exact h.setGrammar ((h.grammarAt i).merge (h.grammarAt j) hrun) hi

/-- A command leads to the grammars with the logs after it. -/
theorem execute (h : w.IsLogged logs) {command : Command}
    (hcommand : command.isDirectWrite = false) :
    (w.execute command).workspace.IsLogged (w.record logs command) := by
  cases hchanges : command.changesGrammars with
  | false =>
    have hrecord : w.record logs command = logs := by
      cases command with
      | _ => first | rfl | cases hchanges
    rw [hrecord]
    exact h.of_kept (Kept.execute hchanges)
  | true =>
    cases command with
    | newGrammar g => exact h.addGrammar Grammar.isPass_empty.isLogged g
    | countTree g source =>
      -- A tree that is counted alone is counted like a sequence of one tree.
      rw [Workspace.execute, record]
      refine h.extendLog fun i hi => ?_
      have hcounted := (h.grammarAt i).countFrom 0 [source]
      rw [Grammar.countFrom] at hcounted
      split
      · rename_i e hsource
        rw [hsource] at hcounted
        exact h.update hcounted
      · rename_i c hsource
        rw [hsource] at hcounted
        dsimp only at hcounted
        split
        · rename_i g' n hrun
          rw [hrun] at hcounted
          exact h.setGrammar hcounted hi
        · rename_i e hrun
          rw [hrun] at hcounted
          exact h.update hcounted
    | countTrees g sources =>
      rw [Workspace.execute, record]
      exact h.extendLog fun i hi => h.setGrammar ((h.grammarAt i).countFrom 0 sources) hi
    | countTreebank g file limits =>
      rw [Workspace.execute, record]
      exact h.extendLog fun i hi =>
        h.setGrammar ((h.grammarAt i).countTreebank w.directory file limits) hi
    | loadTreebank g file limits normalise =>
      have hloaded := Grammar.isLogged_ofTreebank w.directory file limits normalise
      rw [Workspace.record, Workspace.execute]
      cases (Grammar.ofTreebank w.directory file limits normalise).result with
      | ok _ => exact h.addGrammar hloaded g
      | error e => exact h
    | merge g other => exact h.merge g other
    | estimate g =>
      refine h.withGrammar fun i hi => ?_
      have hestimated := h.setGrammar (h.grammarAt i).estimate hi
      rwa [Function.update_eq_self] at hestimated
    | setSymbolCount g symbol count => cases hcommand
    | setRuleCount g rule count => cases hcommand
    | setWeight g rule => cases hcommand
    | _ => cases hchanges

end IsLogged

/-! ## Runs -/

/-- After every run the grammars are those with the logs that the run has recorded. -/
theorem Recorded.isLogged {w : Workspace} {logs : Nat → List Production} (h : w.Recorded logs) :
    w.IsLogged logs := by
  induction h with
  | start d =>
    refine ⟨fun name i hi => ?_, fun i => ?_⟩
    · cases hi
    · exact Grammar.isPass_empty.isLogged
  | execute hcommand _ ih => exact ih.execute hcommand
  | changeFiles d _ ih => exact ih.of_kept ⟨rfl, rfl⟩

/-- Carries out commands one after the other and records the logs. -/
def recordAll (w : Workspace) (logs : Nat → List Production) :
    List Command → Workspace × (Nat → List Production)
  | [] => (w, logs)
  | command :: rest => recordAll (w.execute command).workspace (w.record logs command) rest

theorem Recorded.recordAll {w : Workspace} {logs : Nat → List Production} (h : w.Recorded logs)
    {commands : List Command} (hcommands : ∀ command ∈ commands, command.isDirectWrite = false) :
    (w.recordAll logs commands).1.Recorded (w.recordAll logs commands).2 := by
  induction commands generalizing w logs with
  | nil => exact h
  | cons command rest ih =>
    refine ih (.execute (hcommands command (by simp)) h) ?_
    exact fun command' hmem => hcommands command' (by simp [hmem])

/-- Every run without direct writes records logs. -/
theorem Reachable.exists_recorded {w : Workspace} (h : w.Reachable) : ∃ logs, w.Recorded logs := by
  induction h with
  | start d => exact ⟨_, .start d⟩
  | execute hcommand _ ih =>
    rcases ih with ⟨logs, hlogs⟩
    exact ⟨_, .execute hcommand hlogs⟩
  | changeFiles d _ ih =>
    rcases ih with ⟨logs, hlogs⟩
    exact ⟨logs, .changeFiles d hlogs⟩

/-- After every run each grammar is determined by its log, the order in its tables included: the
nonterminals and the productions of each nonterminal stand in the order of their first occurrence in
the log, with their numbers of occurrences, and the grammar is the one that counts the log one by one,
estimated if its weights have been estimated.  So when open grammars have counted contiguous
shards of a sequence of trees, merging them in order, in whatever grouping, makes the very grammar
that counts the whole sequence in a single pass. -/
theorem Recorded.grammar_of_log {w : Workspace} {logs : Nat → List Production}
    (h : w.Recorded logs) :
    (∀ i, (w.grammarAt i).Lists (logs i) ∧
      w.grammarAt i = .ofLog (logs i) (w.grammarAt i).normalised) ∧
    ∀ {n : Nat} (positions : Fin n → Nat) (shards : Fin n → List TreeSource)
      (steps : List (Fin n × Fin n)) (result : Fin n),
      (∀ k, (w.grammarAt (positions k)).normalised = false ∧
        logs (positions k) = TreeSource.log (shards k) ∧
        ∀ source ∈ shards k, source.productions? ≠ none) →
      Grammar.shardsIn steps result = List.finRange n →
      ∃ merged, Grammar.mergeAll (fun k => w.grammarAt (positions k)) steps = .ok merged ∧
        (Grammar.empty.countStream (List.ofFn shards).flatten).result =
          .ok (List.ofFn shards).flatten.length ∧
        merged result = (Grammar.empty.countStream (List.ofFn shards).flatten).grammar := by
  have hlogged := h.isLogged
  refine ⟨fun i => ⟨(hlogged.grammarAt i).lists, (hlogged.grammarAt i).eq⟩, ?_⟩
  intro n positions shards steps result hshards hresult
  have hpass : ∀ k, (w.grammarAt (positions k)).IsPass (TreeSource.log (shards k)) := by
    intro k
    rw [← (hshards k).2.1]
    exact (hlogged.grammarAt (positions k)).isPass (hshards k).1
  have hcountable : ∀ sources ∈ List.ofFn shards, ∀ source ∈ sources,
      source.productions? ≠ none := by
    intro sources hsources
    rcases List.mem_ofFn.1 hsources with ⟨k, rfl⟩
    exact (hshards k).2.2
  have hlog : TreeSource.log (List.ofFn shards).flatten =
      (List.finRange n).flatMap fun k => TreeSource.log (shards k) := by
    rw [TreeSource.log_flatten hcountable, List.ofFn_eq_map, List.flatMap_map]
  rcases Grammar.mergeAll_isPass hpass hresult with ⟨merged, hmerge, hmerged⟩
  refine ⟨merged, hmerge, ?_, ?_⟩
  · have hall : ∀ source ∈ (List.ofFn shards).flatten, source.productions? ≠ none := by
      intro source hsource
      rcases List.mem_flatten.1 hsource with ⟨sources, hsources, hsource⟩
      exact hcountable sources hsources source hsource
    rw [Grammar.countStream, Grammar.countFrom_result rfl hall, Nat.zero_add]
  · rw [hmerged.eq, (Grammar.isPass_countStream _).eq, hlog]

/-- A run with two shards: the second one breaks off at a text that is no tree and is merged with
itself.  A third grammar is estimated, so that merging it fails. -/
def shardRun : Workspace × (Nat → List Production) :=
  recordAll {} (fun _ => [])
    [.newGrammar "a", .newGrammar "b", .newGrammar "c",
      .countTree "a" (.built Grammar.wideTree),
      .countTrees "b" [.built Grammar.clashTree, .written "(S"],
      .merge "b" "b",
      .countTree "c" (.written "(S (A a))"),
      .estimate "c",
      .merge "a" "c"]

/-- The trees that stand in the logs of the two shards. -/
def shardSources (k : Fin 2) : List TreeSource :=
  match k with
  | 0 => [.built Grammar.wideTree]
  | 1 => [.built Grammar.clashTree, .built Grammar.clashTree]

/-- Each grammar lists what stands in its log, and merging the two shards makes the grammar of three
trees. -/
theorem shardRun_grammar_of_log :
    shardRun.1.Recorded shardRun.2 ∧
      (shardRun.1.grammarAt 1).symbolCounts.entries = [("S", 2), ("A", 2)] ∧
      shardRun.1.grammarAt 2 = .ofLog [.phrasal "S" ["A"], .ofBody "A" (.ofWord "a")] true ∧
      ∃ merged, Grammar.mergeAll (fun k : Fin 2 => shardRun.1.grammarAt k) [(0, 1)] = .ok merged ∧
        merged 0 = (Grammar.empty.countStream
          [.built Grammar.wideTree, .built Grammar.clashTree, .built Grammar.clashTree]).grammar := by
  have hrecorded : shardRun.1.Recorded shardRun.2 := (Recorded.start {}).recordAll (by decide)
  have hshards : ∀ k : Fin 2, (shardRun.1.grammarAt k).normalised = false ∧
      shardRun.2 k = TreeSource.log (shardSources k) ∧
      ∀ source ∈ shardSources k, source.productions? ≠ none := by
    decide +kernel
  have hlog : shardRun.2 2 = [.phrasal "S" ["A"], .ofBody "A" (.ofWord "a")] := by decide +kernel
  have hestimated : (shardRun.1.grammarAt 2).normalised = true := by decide +kernel
  rcases hrecorded.grammar_of_log with ⟨hlogs, hmerge⟩
  refine ⟨hrecorded, ?_, ?_, ?_⟩
  · rw [(hlogs 1).1.symbolCounts]
    decide +kernel
  · have heq := (hlogs 2).2
    rwa [hlog, hestimated] at heq
  · rcases hmerge (fun k => k) shardSources [(0, 1)] 0 hshards (by decide) with
      ⟨merged, hmerged, -, hresult⟩
    exact ⟨merged, hmerged, hresult⟩

end Workspace
end TreebankGrammar
