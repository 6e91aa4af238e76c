import TreebankGrammar.Proofs.Grammar.Estimation
import TreebankGrammar.Proofs.Workspace.Frames

/-!
# Runs of commands

A run begins with a workspace without grammars and carries out commands one after the other, also
those that fail, while the files may change between them.  Of the commands that change grammars,
direct writes to the tables are left out.  What holds of the grammar without counts and is kept by
counting, merging and estimation holds of every grammar that a run makes.

Main results:

- Theorem `Invariant.countTreebank`: counting a treebank file keeps an invariant.
- Theorem `Workspace.Satisfies.execute`: a command keeps an invariant of all grammars.
- Theorem `Workspace.Reachable.satisfies`: an invariant holds of all grammars after every run.
- Theorem `Workspace.Reachable.counts_and_weights`: the counts and weights of grammars after every
  run.
-/

namespace TreebankGrammar

/-! ## Invariants of grammars -/

/-- What holds of the grammar without counts and is kept by the operations on grammars. -/
structure Grammar.Invariant (P : Grammar → Prop) : Prop where
  empty : P .empty
  countTree : ∀ {g : Grammar} {c : Candidate} {g' : Grammar} {n : Nat}, P g →
    g.countTree c = .ok (g', n) → P g'
  merge : ∀ {g other g' : Grammar}, P g → P other → g.merge other = .ok g' → P g'
  estimate : ∀ {g : Grammar}, P g → P g.estimate.grammar

namespace Grammar

/-- Consistency is such an invariant. -/
theorem invariant_consistent : Invariant Consistent where
  empty := consistent_empty
  countTree h := h.countTree
  merge h hother hrun := h.merge hother hrun
  estimate h := h.estimate

namespace Invariant

variable {P : Grammar → Prop} {g : Grammar}

/-- Counting trees keeps an invariant, also when it stops at a tree that fails. -/
theorem countFrom (hP : Invariant P) (hg : P g) (counted : Nat) (sources : List TreeSource) :
    P (g.countFrom counted sources).grammar := by
  induction sources generalizing g counted with
  | nil => exact hg
  | cons source rest ih =>
    rw [Grammar.countFrom]
    split
    · exact hg
    · split
      · exact hg
      · rename_i g' n hrun
        exact ih (hP.countTree hg hrun) (counted + 1)

/-- Counting a treebank file keeps an invariant. -/
theorem countTreebank (hP : Invariant P) (hg : P g) (d : Directory) (file : String)
    (limits : Treebank.Limits) : P (g.countTreebank d file limits).grammar := by
  rw [Grammar.countTreebank]
  split
  · exact hg
  · split
    · exact hg
    · rename_i stream _
      have hcounted := hP.countFrom hg 0
        (((Treebank.read limits stream.lines).trees.map Tree.toCandidate).map .built)
      dsimp only
      split
      · exact hg
      · split
        · exact hcounted
        · exact hcounted

/-- The grammar of a treebank file satisfies an invariant. -/
theorem ofTreebank (hP : Invariant P) (d : Directory) (file : String) (limits : Treebank.Limits)
    (normalise : Bool) : P (ofTreebank d file limits normalise).grammar := by
  have hcounted := hP.countTreebank hP.empty d file limits
  unfold Grammar.ofTreebank
  dsimp only
  split
  · exact hcounted
  · split
    · exact hP.estimate hcounted
    · exact hcounted

end Invariant
end Grammar

/-! ## Commands -/

/-- Whether a command writes to the tables of a grammar directly. -/
def Command.isDirectWrite : Command → Bool
  | .setSymbolCount .. => true
  | .setRuleCount .. => true
  | .setWeight .. => true
  | _ => false

namespace Workspace

/-- All grammars of a workspace have a property. -/
def Satisfies (P : Grammar → Prop) (w : Workspace) : Prop :=
  ∀ g ∈ w.grammars, P g

namespace Satisfies

variable {P : Grammar → Prop} {w : Workspace}

theorem grammarAt (hw : w.Satisfies P) (hempty : P .empty) (position : Nat) :
    P (w.grammarAt position) := by
  unfold Workspace.grammarAt Array.getD
  split
  · exact hw _ (Array.getElem_mem _)
  · exact hempty

theorem addGrammar (hw : w.Satisfies P) {g : Grammar} (hg : P g) (name : String) :
    (w.addGrammar name g).Satisfies P := by
  intro g' hg'
  rcases Array.mem_push.1 hg' with hg' | rfl
  · exact hw g' hg'
  · exact hg

theorem setGrammar (hw : w.Satisfies P) {g : Grammar} (hg : P g) (name : String) :
    (w.setGrammar name g).Satisfies P := by
  unfold Workspace.setGrammar
  split
  · intro g' hg'
    rcases Array.mem_or_eq_of_mem_setIfInBounds hg' with hg' | rfl
    · exact hw g' hg'
    · exact hg
  · exact hw

/-! ### Responses -/

/-- A response whose workspace has the same grammars. -/
theorem of_grammars_eq (hw : w.Satisfies P) {w' : Workspace} (h : w'.grammars = w.grammars) :
    w'.Satisfies P := by
  intro g hg
  rw [h] at hg
  exact hw g hg

theorem ofOutcome {α : Type} (hw : w.Satisfies P) (name : String) {outcome : Outcome α}
    (hg : P outcome.grammar) (toAnswer : α → Answer) :
    (w.ofOutcome name outcome toAnswer).workspace.Satisfies P :=
  hw.setGrammar hg name

theorem withGrammar (hw : w.Satisfies P) (hempty : P .empty) {name : String}
    {next : Grammar → Response} (hnext : ∀ g, P g → (next g).workspace.Satisfies P) :
    (w.withGrammar name next).workspace.Satisfies P := by
  unfold Workspace.withGrammar
  cases hname : w.grammar? name with
  | none => exact hw
  | some g =>
    rcases Option.map_eq_some_iff.1 hname with ⟨position, -, rfl⟩
    exact hnext _ (hw.grammarAt hempty position)

end Satisfies

/-! ### Execution -/

/-- A command other than a direct write keeps an invariant of all grammars. -/
theorem Satisfies.execute {P : Grammar → Prop} {w : Workspace} (hP : Grammar.Invariant P)
    (hw : w.Satisfies P) {command : Command} (hcommand : command.isDirectWrite = false) :
    (w.execute command).workspace.Satisfies P := by
  cases hchanges : command.changesGrammars with
  | false => exact hw.of_grammars_eq (Kept.execute hchanges).grammars
  | true =>
    cases command with
    | newGrammar g => exact hw.addGrammar hP.empty g
    | countTree g source =>
      refine hw.withGrammar hP.empty fun grammar hg => ?_
      split
      · exact hw
      · split
        · rename_i hrun
          exact hw.setGrammar (hP.countTree hg hrun) g
        · exact hw
    | countTrees g sources =>
      exact hw.withGrammar hP.empty fun grammar hg =>
        hw.ofOutcome g (hP.countFrom hg 0 sources) .number
    | countTreebank g file limits =>
      exact hw.withGrammar hP.empty fun grammar hg =>
        hw.ofOutcome g (hP.countTreebank hg w.directory file limits) .number
    | loadTreebank g file limits normalise =>
      have hloaded := hP.ofTreebank w.directory file limits normalise
      unfold Workspace.execute
      dsimp only
      split
      · exact hw.addGrammar hloaded g
      · exact hw
    | merge g other =>
      refine hw.withGrammar hP.empty fun grammar hg => ?_
      refine hw.withGrammar hP.empty fun added hadded => ?_
      split
      · rename_i hrun
        exact hw.setGrammar (hP.merge hg hadded hrun) g
      · exact hw
    | estimate g =>
      exact hw.withGrammar hP.empty fun grammar hg => hw.ofOutcome g (hP.estimate hg) fun _ => .done
    | setSymbolCount g symbol count => cases hcommand
    | setRuleCount g rule count => cases hcommand
    | setWeight g rule => cases hcommand
    | _ => cases hchanges

/-! ## Runs -/

/-- The workspaces that runs without direct writes lead to. -/
inductive Reachable : Workspace → Prop
  | start (d : Directory) : Reachable { directory := d }
  | execute {w : Workspace} {command : Command} (hcommand : command.isDirectWrite = false)
      (hw : Reachable w) : Reachable (w.execute command).workspace
  | changeFiles {w : Workspace} (d : Directory) (hw : Reachable w) :
      Reachable { w with directory := d }

/-- Commands that are carried out one after the other. -/
theorem Reachable.foldl_execute {w : Workspace} (h : w.Reachable) {commands : List Command}
    (hcommands : ∀ command ∈ commands, command.isDirectWrite = false) :
    (commands.foldl (fun w command => (w.execute command).workspace) w).Reachable := by
  induction commands generalizing w with
  | nil => exact h
  | cons command rest ih =>
    refine ih (.execute (hcommands command (by simp)) h) ?_
    exact fun command' hmem => hcommands command' (by simp [hmem])

/-- An invariant holds of all grammars after every run. -/
theorem Reachable.satisfies {P : Grammar → Prop} (hP : Grammar.Invariant P) {w : Workspace}
    (h : w.Reachable) : w.Satisfies P := by
  induction h with
  | start d =>
    intro g hg
    cases Array.not_mem_empty g hg
  | execute hcommand _ ih => exact ih.execute hP hcommand
  | changeFiles d _ ih => exact ih.of_grammars_eq rfl

/-- After every run the two tables of each grammar have the same nonterminals in the same order,
and the count of a nonterminal is the sum of the counts of its rules.  Each rule stands under its
own left-hand side, has symbols on the right and has been seen.  Before estimation its weight is
zero, and afterwards its weight is the correctly rounded quotient of its count by that of its
nonterminal; the exact quotients add up to one.  The counts pass their check, and estimation
succeeds. -/
theorem Reachable.counts_and_weights {w : Workspace} (h : w.Reachable) {g : Grammar}
    (hg : g ∈ w.grammars) :
    g.symbolCounts.keys = g.rows.keys ∧
      (∀ X, g.symbolCount X = g.rowTotal X) ∧
      (∀ p tally, (p, tally) ∈ g.tallies →
        g.tally? p = some tally ∧ p.rhs ≠ [] ∧ 1 ≤ tally.count ∧
        (g.normalised = false → tally.weight = .zero) ∧
        (g.normalised = true →
          Binary64.quotient? tally.count (g.symbolCount p.lhs) = some tally.weight ∧
          Binary64.IsNearest ((tally.count : ℚ) / g.symbolCount p.lhs) tally.weight)) ∧
      (∀ X ∈ g.rows.keys,
        ((g.row X).values.map fun tally => (tally.count : ℚ) / g.symbolCount X).sum = 1) ∧
      g.checkCounts = .ok () ∧ g.estimate.result = .ok () := by
  have hconsistent : g.Consistent := h.satisfies Grammar.invariant_consistent g hg
  refine ⟨hconsistent.keys_eq, hconsistent.symbolCount_eq_rowTotal, ?_, ?_,
    hconsistent.checkCounts_eq_ok, hconsistent.estimate_result⟩
  · intro p tally hmem
    rcases hconsistent.of_mem_tallies hmem with ⟨row, hX, hbody, hrow⟩
    have htally : g.tally? p = some tally := by
      unfold Grammar.tally? Grammar.row Table.getD
      rw [hX, Option.getD_some, hbody]
    refine ⟨htally, hrow.rhs_ne_nil p.toBody tally hbody, hrow.one_le_count p.toBody tally hbody,
      fun hnot => hrow.weight_eq_zero hnot p.toBody tally hbody, ?_⟩
    intro hnormalised
    have hquotient := hrow.quotient?_eq hnormalised p.toBody tally hbody
    exact ⟨hquotient, Binary64.isNearest_of_quotient? hrow.total_pos hquotient⟩
  · intro X hX
    rcases (g.rows.mem_keys_iff X).1 hX with ⟨row, hrow⟩
    have hrow' : g.row X = row := by
      unfold Grammar.row Table.getD
      rw [hrow, Option.getD_some]
    rw [hrow']
    exact (hconsistent.row X row hrow).sum_quotients

/-- A run that counts a tree, merges the grammar with itself and estimates the weights. -/
def doubled : Workspace :=
  let commands : List Command :=
    [.newGrammar "g",
      .countTree "g" (.built (.node "S" [.node "S" [.node "a" []], .node "b" []])),
      .merge "g" "g",
      .estimate "g"]
  commands.foldl (fun w command => (w.execute command).workspace) {}

/-- One half, in units of the smallest positive number. -/
def half : Weight :=
  .finite false (2 ^ 52) 1021 (by decide)

/-- The counts of a grammar that has been merged with itself agree, and its weights are quotients.
-/
theorem doubled_counts_and_weights :
    doubled.Reachable ∧ ∃ g ∈ doubled.grammars, g.normalised = true ∧
      g.symbolCounts.keys = ["S"] ∧ g.symbolCount "S" = 4 ∧ g.rowTotal "S" = 4 ∧
      g.tally? (.phrasal "S" ["S", "b"]) = some ⟨2, half⟩ ∧ half.toRat = 1 / 2 ∧
      Binary64.quotient? 2 4 = some half ∧ Binary64.IsNearest (2 / 4) half ∧
      ((g.row "S").values.map fun tally => (tally.count : ℚ) / g.symbolCount "S").sum = 1 ∧
      g.checkCounts = .ok () ∧ g.estimate.result = .ok () := by
  have hreachable : doubled.Reachable := by
    refine (Reachable.start {}).foldl_execute ?_
    decide
  have hmem : doubled.grammarAt 0 ∈ doubled.grammars := by decide +kernel
  have hnormalised : (doubled.grammarAt 0).normalised = true := by decide +kernel
  have hrows : (doubled.grammarAt 0).rows.keys = ["S"] := by decide +kernel
  have hcount : (doubled.grammarAt 0).symbolCount "S" = 4 := by decide +kernel
  have hrule : (.phrasal "S" ["S", "b"], ⟨2, half⟩) ∈ (doubled.grammarAt 0).tallies := by
    decide +kernel
  have hhalf : half.toRat = 1 / 2 := by decide +kernel
  rcases hreachable.counts_and_weights hmem with
    ⟨hkeys, hsum, htallies, hquotients, hcheck, hestimate⟩
  obtain ⟨htally, -, -, -, hweight⟩ := htallies _ _ hrule
  obtain ⟨hquotient, hnearest⟩ := hweight hnormalised
  have hlhs : (doubled.grammarAt 0).symbolCount (Production.phrasal "S" ["S", "b"]).lhs = 4 := hcount
  rw [hlhs] at hquotient hnearest
  refine ⟨hreachable, _, hmem, hnormalised, hkeys.trans hrows, hcount, ?_, htally, hhalf, hquotient,
    hnearest, hquotients "S" (by simp [hrows]), hcheck, hestimate⟩
  rw [← hsum, hcount]

end Workspace
end TreebankGrammar
