import TreebankGrammar.Proofs.Grammar.TreeLogs
import TreebankGrammar.Proofs.Workspace.Logs

/-!
# Frozen grammars

A grammar whose weights have been estimated is frozen.  Later commands leave it as it is, whether they
succeed or fail: counting is refused, merging is refused for the target and for the other grammar, and
a second estimation finds the weights that are there.

Main definitions:

- `Workspace.Leads`: a run without direct writes leads from one workspace to another.
- `Workspace.Refuses`: a command fails at a frozen grammar and changes no grammar.
- `Workspace.IsFrozenAt`: the grammar at a position is frozen.

Main results:

- Theorem `Workspace.grammarAt_execute`: a command leaves frozen grammars as they are.
- Theorem `Workspace.Leads.grammarAt_eq`: so does a run.
- Theorem `Workspace.Reachable.estimation_freezes`: after estimation a grammar is frozen for good.
-/

namespace TreebankGrammar
namespace Grammar

/-! ## Operations on frozen grammars -/

/-- An operation fails because a grammar takes no more counts. -/
def Error.IsFrozen (e : Error) : Prop :=
  e = .frozen ∨ e = .mergeFrozen

variable {g other : Grammar}

theorem countTree_of_normalised (hg : g.normalised = true) (c : Candidate) :
    g.countTree c = .error .frozen := by
  rw [countTree, if_pos hg]

/-- Counting trees does not change a frozen grammar, whatever the trees are. -/
theorem grammar_countFrom_of_normalised (hg : g.normalised = true) (counted : Nat)
    (sources : List TreeSource) : (g.countFrom counted sources).grammar = g := by
  rw [countFrom_eq, treeLog_eq_nil hg]
  rfl

/-- Counting trees fails at the first one. -/
theorem countFrom_of_normalised (hg : g.normalised = true) (counted : Nat) {source : TreeSource}
    {c : Candidate} (hsource : source.candidate = .ok c) (rest : List TreeSource) :
    g.countFrom counted (source :: rest) = .error g .frozen := by
  rw [countFrom, hsource]
  dsimp only
  rw [countTree_of_normalised hg]

theorem countTreebank_of_normalised (hg : g.normalised = true) (d : Directory) (file : String)
    (limits : Treebank.Limits) : g.countTreebank d file limits = .error g .frozen := by
  rw [countTreebank, if_pos hg]

/-- Merging fails if one of the two grammars is frozen. -/
theorem exists_merge_eq_error (h : g.normalised = true ∨ other.normalised = true) :
    ∃ e : Error, e.IsFrozen ∧ g.merge other = .error e := by
  unfold merge
  cases hg : g.normalised with
  | true => exact ⟨.frozen, .inl rfl, if_pos rfl⟩
  | false =>
    have hother : other.normalised = true := by
      rcases h with h | h
      · rw [hg] at h
        cases h
      · exact h
    refine ⟨.mergeFrozen, .inr rfl, ?_⟩
    rw [if_neg Bool.false_ne_true, if_pos hother]

/-- A second estimation changes nothing. -/
theorem Consistent.estimate_of_normalised (h : g.Consistent) (hg : g.normalised = true) :
    g.estimate.grammar = g := by
  rw [h.estimate_eq]
  exact h.withQuotients_eq_self hg

/-- Estimation freezes a consistent grammar. -/
theorem Consistent.normalised_estimate (h : g.Consistent) :
    g.estimate.grammar.normalised = true := by
  rw [h.estimate_eq]
  rfl

/-- The grammar of a treebank file with estimated weights is frozen. -/
theorem normalised_ofTreebank {d : Directory} {file : String} {limits : Treebank.Limits}
    (h : (ofTreebank d file limits true).result = .ok ()) :
    (ofTreebank d file limits true).grammar.normalised = true := by
  have hcounted := invariant_consistent.countTreebank consistent_empty d file limits
  unfold ofTreebank at h ⊢
  dsimp only at h ⊢
  split
  · rename_i e hresult
    rw [hresult] at h
    cases h
  · exact hcounted.normalised_estimate

end Grammar

namespace Workspace

variable {w w' : Workspace} {i : Nat}

/-! ## Single grammars of a workspace -/

/-- Only positions of grammars have frozen grammars. -/
theorem lt_size_of_normalised (h : (w.grammarAt i).normalised = true) : i < w.grammars.size := by
  by_contra hnot
  rw [grammarAt, Array.getD, dif_neg hnot] at h
  cases h

theorem grammarAt_addGrammar (hi : i < w.grammars.size) (name : String) (g : Grammar) :
    (w.addGrammar name g).grammarAt i = w.grammarAt i := by
  simp [Workspace.grammarAt, Workspace.addGrammar, Array.getElem?_push, hi.ne]

theorem grammarAt_addGrammar_self (w : Workspace) (name : String) (g : Grammar) :
    (w.addGrammar name g).grammarAt w.grammars.size = g := by
  simp [Workspace.grammarAt, Workspace.addGrammar]

/-- A grammar that is put back as it was changes nothing. -/
theorem setGrammar_grammarAt {name : String} (hname : w.grammarNames.get? name = some i) :
    w.setGrammar name (w.grammarAt i) = w := by
  have hgrammars : w.grammars.setIfInBounds i (w.grammarAt i) = w.grammars := by
    apply Array.ext
    · exact Array.size_setIfInBounds
    · intro j hj hj'
      rw [Array.getElem_setIfInBounds hj']
      split
      · rename_i hij
        subst hij
        simp [Workspace.grammarAt, hj']
      · rfl
  rw [Workspace.setGrammar, hname]
  simp only [hgrammars]

/-- A grammar that is put back leaves the one at a position as it is if it is that one itself or
stands at another position. -/
theorem grammarAt_setGrammar {name : String} {g : Grammar}
    (hg : w.grammarNames.get? name = some i → g = w.grammarAt i) :
    (w.setGrammar name g).grammarAt i = w.grammarAt i := by
  cases hj : w.grammarNames.get? name with
  | none => rw [Workspace.setGrammar, hj]
  | some j =>
    by_cases hji : j = i
    · subst hji
      rw [hg hj, setGrammar_grammarAt hj]
    · rw [Workspace.setGrammar, hj]
      simp [Workspace.grammarAt, hji]

/-- A grammar that is put back at the position of its name stands there. -/
theorem grammarAt_setGrammar_self {name : String} (hname : w.grammarNames.get? name = some i)
    (hi : i < w.grammars.size) (g : Grammar) : (w.setGrammar name g).grammarAt i = g := by
  rw [Workspace.setGrammar, hname]
  simp [Workspace.grammarAt, hi]

/-- Goes on with the grammar of a name that stands for one. -/
theorem withGrammar_of_get? {name : String} (hname : w.grammarNames.get? name = some i)
    (next : Grammar → Response) : w.withGrammar name next = next (w.grammarAt i) := by
  unfold Workspace.withGrammar Workspace.grammar?
  rw [hname]
  rfl

theorem grammarAt_withGrammar {name : String} {next : Grammar → Response}
    (hnext : ∀ j, w.grammarNames.get? name = some j →
      (next (w.grammarAt j)).workspace.grammarAt i = w.grammarAt i) :
    (w.withGrammar name next).workspace.grammarAt i = w.grammarAt i := by
  cases hj : w.grammarNames.get? name with
  | none =>
    unfold Workspace.withGrammar Workspace.grammar?
    rw [hj]
    rfl
  | some j =>
    rw [withGrammar_of_get? hj]
    exact hnext j hj

/-- An operation on the grammar with a name leaves a grammar as it is if it would do so with this
very grammar. -/
theorem grammarAt_ofOutcome {α : Type} {name : String} {operation : Grammar → Outcome α}
    (toAnswer : α → Answer) (h : (operation (w.grammarAt i)).grammar = w.grammarAt i) :
    (w.withGrammar name fun g => w.ofOutcome name (operation g) toAnswer).workspace.grammarAt i =
      w.grammarAt i := by
  refine grammarAt_withGrammar fun j hj => grammarAt_setGrammar fun hi => ?_
  rw [hj] at hi
  rw [Option.some.inj hi]
  exact h

/-! ## One command -/

/-- A command leaves frozen grammars as they are, whether it succeeds or fails. -/
theorem grammarAt_execute (h : (w.grammarAt i).Consistent)
    (hi : (w.grammarAt i).normalised = true) {command : Command}
    (hcommand : command.isDirectWrite = false) :
    (w.execute command).workspace.grammarAt i = w.grammarAt i := by
  have hlt := lt_size_of_normalised hi
  cases hchanges : command.changesGrammars with
  | false => rw [Workspace.grammarAt, (Kept.execute hchanges).grammars, ← Workspace.grammarAt]
  | true =>
    cases command with
    | newGrammar g => exact grammarAt_addGrammar hlt g .empty
    | countTree g source =>
      refine grammarAt_withGrammar fun j hj => ?_
      split
      · rfl
      · split
        · -- The grammar that has counted is not the frozen one.
          rename_i hrun
          refine grammarAt_setGrammar fun hname => ?_
          rw [hj] at hname
          rw [Option.some.inj hname, Grammar.countTree_of_normalised hi] at hrun
          cases hrun
        · rfl
    | countTrees g sources =>
      exact grammarAt_ofOutcome .number (Grammar.grammar_countFrom_of_normalised hi 0 sources)
    | countTreebank g file limits =>
      refine grammarAt_ofOutcome .number ?_
      rw [Grammar.countTreebank_of_normalised hi]
      rfl
    | loadTreebank g file limits normalise =>
      unfold Workspace.execute
      dsimp only
      split
      · exact grammarAt_addGrammar hlt g _
      · rfl
    | merge g other =>
      refine grammarAt_withGrammar fun j hj => grammarAt_withGrammar fun k _ => ?_
      split
      · rename_i hrun
        refine grammarAt_setGrammar fun hname => ?_
        rw [hj] at hname
        rw [Option.some.inj hname] at hrun
        have hfrozen : (w.grammarAt i).normalised = true ∨ (w.grammarAt k).normalised = true :=
          .inl hi
        obtain ⟨e, -, herror⟩ := Grammar.exists_merge_eq_error hfrozen
        rw [herror] at hrun
        cases hrun
      · rfl
    | estimate g => exact grammarAt_ofOutcome _ (h.estimate_of_normalised hi)
    | setSymbolCount g symbol count => cases hcommand
    | setRuleCount g rule count => cases hcommand
    | setWeight g rule => cases hcommand
    | _ => cases hchanges

/-! ## Runs -/

/-- A run without direct writes leads from one workspace to another. -/
inductive Leads (w : Workspace) : Workspace → Prop
  | refl : Leads w w
  | execute {w' : Workspace} {command : Command} (hcommand : command.isDirectWrite = false)
      (h : Leads w w') : Leads w (w'.execute command).workspace
  | changeFiles {w' : Workspace} (d : Directory) (h : Leads w w') :
      Leads w { w' with directory := d }

theorem Leads.foldl_execute (h : w.Leads w') {commands : List Command}
    (hcommands : ∀ command ∈ commands, command.isDirectWrite = false) :
    w.Leads (commands.foldl (fun w command => (w.execute command).workspace) w') := by
  induction commands generalizing w' with
  | nil => exact h
  | cons command rest ih =>
    refine ih (.execute (hcommands command List.mem_cons_self) h) ?_
    exact fun command' hmem => hcommands command' (List.mem_cons_of_mem command hmem)

theorem Leads.reachable (h : w.Leads w') (hw : w.Reachable) : w'.Reachable := by
  induction h with
  | refl => exact hw
  | execute hcommand _ ih => exact .execute hcommand ih
  | changeFiles d _ ih => exact .changeFiles d ih

/-- After every run the grammar at a position is consistent. -/
theorem Reachable.consistent_grammarAt (h : w.Reachable) (i : Nat) :
    (w.grammarAt i).Consistent :=
  (h.satisfies Grammar.invariant_consistent).grammarAt Grammar.consistent_empty i

/-- A run leaves frozen grammars as they are. -/
theorem Leads.grammarAt_eq (h : w.Leads w') (hw : w.Reachable)
    (hi : (w.grammarAt i).normalised = true) : w'.grammarAt i = w.grammarAt i := by
  induction h with
  | refl => rfl
  | @execute w' command hcommand h ih =>
    have hconsistent := (h.reachable hw).consistent_grammarAt i
    have hstep := grammarAt_execute hconsistent (by rw [ih]; exact hi) hcommand
    exact hstep.trans ih
  | changeFiles d _ ih => exact ih

/-! ## Frozen grammars -/

/-- A command fails because a grammar is frozen, and leaves all grammars as they are. -/
structure Refuses (w : Workspace) (command : Command) : Prop where
  result : ∃ e : Grammar.Error, e.IsFrozen ∧ (w.execute command).result = .error (.grammar e)
  kept : w.Kept (w.execute command).workspace

/-- The grammar at a position is the given one, and frozen: it takes no trees, no treebank files and
no other grammar, it is not merged into others, and estimation succeeds and changes nothing. -/
structure IsFrozenAt (w : Workspace) (i : Nat) (g : Grammar) : Prop where
  grammarAt : w.grammarAt i = g
  normalised : g.normalised = true
  countTree : ∀ name source c, w.grammarNames.get? name = some i → source.candidate = .ok c →
    w.Refuses (.countTree name source)
  countTrees : ∀ name source c rest, w.grammarNames.get? name = some i →
    source.candidate = .ok c → w.Refuses (.countTrees name (source :: rest))
  countTreebank : ∀ name file limits, w.grammarNames.get? name = some i →
    w.Refuses (.countTreebank name file limits)
  merge : ∀ name other j, w.grammarNames.get? name = some i →
    w.grammarNames.get? other = some j →
    w.Refuses (.merge name other) ∧ w.Refuses (.merge other name)
  estimate : ∀ name, w.grammarNames.get? name = some i →
    (w.execute (.estimate name)).result = .ok .done ∧
    w.Kept (w.execute (.estimate name)).workspace

/-- An operation on the grammar with a name that fails with a grammar as it was. -/
theorem Refuses.of_outcome {α : Type} {command : Command} {name : String}
    (hname : w.grammarNames.get? name = some i) {operation : Grammar → Outcome α}
    {toAnswer : α → Answer}
    (hexecute : w.execute command =
      w.withGrammar name fun g => w.ofOutcome name (operation g) toAnswer)
    (h : operation (w.grammarAt i) = .error (w.grammarAt i) .frozen) : w.Refuses command := by
  have hresponse : w.execute command =
      w.ofOutcome name (.error (w.grammarAt i) .frozen) toAnswer := by
    rw [hexecute, withGrammar_of_get? hname, h]
  constructor
  · refine ⟨.frozen, .inl rfl, ?_⟩
    rw [hresponse]
    rfl
  · rw [hresponse]
    rw [Workspace.ofOutcome, Outcome.error, setGrammar_grammarAt hname]
    exact Kept.refl w

/-- Merging is refused if one of the two grammars is frozen. -/
theorem Refuses.merge {name other : String} {j : Nat}
    (hname : w.grammarNames.get? name = some i) (hother : w.grammarNames.get? other = some j)
    (h : (w.grammarAt i).normalised = true ∨ (w.grammarAt j).normalised = true) :
    w.Refuses (.merge name other) := by
  obtain ⟨e, hfrozen, herror⟩ := Grammar.exists_merge_eq_error h
  have hresponse : w.execute (.merge name other) = w.fail (.grammar e) := by
    rw [Workspace.execute, withGrammar_of_get? hname, withGrammar_of_get? hother, herror]
  constructor
  · refine ⟨e, hfrozen, ?_⟩
    rw [hresponse]
    rfl
  · rw [hresponse]
    exact Kept.refl w

/-- After every run a grammar whose weights have been estimated is frozen. -/
theorem Reachable.isFrozenAt (h : w.Reachable) (hi : (w.grammarAt i).normalised = true) :
    w.IsFrozenAt i (w.grammarAt i) where
  grammarAt := rfl
  normalised := hi
  countTree name source c hname hsource := by
    have hresponse : w.execute (.countTree name source) = w.fail (.grammar .frozen) := by
      rw [Workspace.execute, withGrammar_of_get? hname, hsource]
      dsimp only
      rw [Grammar.countTree_of_normalised hi]
    constructor
    · refine ⟨.frozen, .inl rfl, ?_⟩
      rw [hresponse]
      rfl
    · rw [hresponse]
      exact Kept.refl w
  countTrees name source c rest hname hsource :=
    .of_outcome hname rfl (Grammar.countFrom_of_normalised hi 0 hsource rest)
  countTreebank name file limits hname :=
    .of_outcome hname rfl (Grammar.countTreebank_of_normalised hi w.directory file limits)
  merge name other j hname hother :=
    ⟨.merge hname hother (.inl hi), .merge hother hname (.inr hi)⟩
  estimate name hname := by
    have hconsistent := h.consistent_grammarAt i
    have hgrammar := hconsistent.estimate_of_normalised hi
    rw [Workspace.execute, withGrammar_of_get? hname]
    constructor
    · rw [Workspace.ofOutcome, hconsistent.estimate_result]
    · rw [Workspace.ofOutcome, hgrammar, setGrammar_grammarAt hname]
      exact Kept.refl w

/-- A grammar that is frozen after a run stays so and is the same after every later run. -/
theorem Leads.isFrozenAt (h : w.Leads w') (hw : w.Reachable)
    (hi : (w.grammarAt i).normalised = true) : w'.IsFrozenAt i (w.grammarAt i) := by
  have heq := h.grammarAt_eq hw hi
  rw [← heq]
  refine (h.reachable hw).isFrozenAt ?_
  rw [heq]
  exact hi

/-- Estimation of a grammar with a name succeeds and freezes it. -/
theorem Reachable.execute_estimate (h : w.Reachable) {name : String}
    (hname : w.grammarNames.get? name = some i) :
    (w.execute (.estimate name)).result = .ok .done ∧
      ((w.execute (.estimate name)).workspace.grammarAt i).normalised = true := by
  have hconsistent := h.consistent_grammarAt i
  obtain ⟨logs, hlogs⟩ := h.exists_recorded
  rw [Workspace.execute, withGrammar_of_get? hname]
  constructor
  · rw [Workspace.ofOutcome, hconsistent.estimate_result]
  · rw [Workspace.ofOutcome,
      grammarAt_setGrammar_self hname (hlogs.isLogged.position_lt name i hname)]
    exact hconsistent.normalised_estimate

/-- A treebank file that is loaded with estimation makes a frozen grammar. -/
theorem normalised_loadTreebank {name file : String} {limits : Treebank.Limits}
    (h : (w.execute (.loadTreebank name file limits true)).result = .ok .done) :
    ((w.execute (.loadTreebank name file limits true)).workspace.grammarAt
      w.grammars.size).normalised = true := by
  rw [Workspace.execute] at h ⊢
  dsimp only at h ⊢
  split
  · rename_i hresult
    exact (congrArg Grammar.normalised (grammarAt_addGrammar_self w name _)).trans
      (Grammar.normalised_ofTreebank hresult)
  · rename_i e hresult
    rw [hresult] at h
    cases h

/-- Estimation freezes a grammar for good: it succeeds after every run, and after every later run the
grammar is the very one that estimation has left behind, is not counted into, takes part in no merge,
and estimating it again succeeds and changes nothing.  The same holds of the grammar of a treebank
file that is loaded with estimation. -/
theorem Reachable.estimation_freezes (h : w.Reachable) :
    (∀ name i, w.grammarNames.get? name = some i →
      (w.execute (.estimate name)).result = .ok .done ∧
      ∀ w', (w.execute (.estimate name)).workspace.Leads w' →
        w'.IsFrozenAt i ((w.execute (.estimate name)).workspace.grammarAt i)) ∧
    ∀ name file limits, (w.execute (.loadTreebank name file limits true)).result = .ok .done →
      ∀ w', (w.execute (.loadTreebank name file limits true)).workspace.Leads w' →
        w'.IsFrozenAt w.grammars.size
          ((w.execute (.loadTreebank name file limits true)).workspace.grammarAt w.grammars.size) := by
  constructor
  · intro name i hname
    obtain ⟨hresult, hnormalised⟩ := h.execute_estimate hname
    refine ⟨hresult, fun w' hleads => ?_⟩
    exact hleads.isFrozenAt (.execute rfl h) hnormalised
  · intro name file limits hresult w' hleads
    exact hleads.isFrozenAt (.execute rfl h) (normalised_loadTreebank hresult)

/-- Two grammars that have each counted a tree, beside a treebank file. -/
def twoGrammars : Workspace :=
  let commands : List Command :=
    [.newGrammar "g",
      .countTree "g" (.built Grammar.wideTree),
      .newGrammar "h",
      .countTree "h" (.built Grammar.clashTree)]
  commands.foldl (fun w command => (w.execute command).workspace)
    { directory := { files := Table.empty.insert "bank" "(S (A a))\n".toUTF8 } }

/-- What is done after the first grammar has been estimated: the other one counts a tree, is estimated
too and gives its name to a third one. -/
def afterwards : List Command :=
  [.countTree "h" (.built Grammar.wideTree), .merge "h" "g", .countTree "g" (.written "(S a)"),
    .estimate "h", .newGrammar "h", .rules "g"]

/-- The estimated grammar is the same afterwards and still frozen, and so is the grammar of the
treebank file. -/
theorem twoGrammars_estimation_freezes :
    let estimated := (twoGrammars.execute (.estimate "g")).workspace
    let later := afterwards.foldl (fun w command => (w.execute command).workspace) estimated
    let loaded := (twoGrammars.execute (.loadTreebank "k" "bank" {} true)).workspace
    twoGrammars.Reachable ∧ later.grammarAt 0 = estimated.grammarAt 0 ∧
      later.Refuses (.countTree "g" (.built Grammar.clashTree)) ∧
      later.Refuses (.merge "g" "h") ∧ later.Refuses (.merge "h" "g") ∧
      (later.execute (.estimate "g")).result = .ok .done ∧
      loaded.Refuses (.merge "g" "k") ∧ loaded.Refuses (.countTreebank "k" "bank" {}) := by
  have hreachable : twoGrammars.Reachable := by
    refine (Reachable.start _).foldl_execute ?_
    decide
  obtain ⟨hestimated, hloaded⟩ := hreachable.estimation_freezes
  have hdirect : ∀ command ∈ afterwards, command.isDirectWrite = false := by decide
  have hlater := (hestimated "g" 0 (by decide +kernel)).2 _ (Leads.refl.foldl_execute hdirect)
  have hmerge := hlater.merge "g" "h" 2 (by decide +kernel) (by decide +kernel)
  have hload : (Grammar.ofTreebank twoGrammars.directory "bank" {} true).result = .ok () := by
    decide +kernel
  have hbank := hloaded "k" "bank" {} (by rw [Workspace.execute, hload]; rfl) _ .refl
  refine ⟨hreachable, hlater.grammarAt, ?_, hmerge.1, hmerge.2, ?_, ?_, ?_⟩
  · exact hlater.countTree "g" _ _ (by decide +kernel) rfl
  · exact (hlater.estimate "g" (by decide +kernel)).1
  · exact (hbank.merge "k" "g" 0 (by decide +kernel) (by decide +kernel)).2
  · exact hbank.countTreebank "k" "bank" {} (by decide +kernel)

end Workspace
end TreebankGrammar
