import TreebankGrammar.Workspace.Execution

/-!
# Commands that leave grammars as they are

Most commands only ask for something, write files or work on binarizers and rule lists.  They leave
all grammars as they are, and the names of the grammars too.

Main definitions:

- `Command.changesGrammars`: whether a command may make or change a grammar.
- `Workspace.Kept`: a workspace has the grammars of another one under the same names.

Main results:

- Theorem `Kept.execute`: only commands that make or change grammars have an effect on them.
-/

namespace TreebankGrammar

/-- Whether a command may make or change a grammar. -/
def Command.changesGrammars : Command → Bool
  | .newGrammar .. => true
  | .countTree .. => true
  | .countTrees .. => true
  | .countTreebank .. => true
  | .loadTreebank .. => true
  | .merge .. => true
  | .estimate .. => true
  | .setSymbolCount .. => true
  | .setRuleCount .. => true
  | .setWeight .. => true
  | _ => false

namespace Workspace

/-- A workspace has the grammars of another one under the same names. -/
structure Kept (w w' : Workspace) : Prop where
  grammars : w'.grammars = w.grammars
  grammarNames : w'.grammarNames = w.grammarNames

namespace Kept

variable {w : Workspace}

theorem refl (w : Workspace) : w.Kept w :=
  ⟨rfl, rfl⟩

theorem withGrammar {name : String} {next : Grammar → Response}
    (hnext : ∀ g, w.Kept (next g).workspace) : w.Kept (w.withGrammar name next).workspace := by
  unfold Workspace.withGrammar
  split
  · exact hnext _
  · exact refl w

theorem withRule {spec : RuleSpec} {next : Rule → Response}
    (hnext : ∀ r, w.Kept (next r).workspace) : w.Kept (w.withRule spec next).workspace := by
  unfold Workspace.withRule
  split
  · exact hnext _
  · exact refl w

theorem withBinarizer {b : String} {next : AssignedBinarizer → Grammar → Response}
    (hnext : ∀ assigned g, w.Kept (next assigned g).workspace) :
    w.Kept (w.withBinarizer b next).workspace := by
  unfold Workspace.withBinarizer
  split
  · exact hnext _ _
  · exact refl w

theorem store (w : Workspace) (file : String) (header : List String) (rules : List Rule) :
    w.Kept (w.store file header rules).workspace := by
  unfold Workspace.store
  split
  · exact ⟨rfl, rfl⟩
  · exact refl w

theorem keepRules (w : Workspace) (name : Option String) (rules : List Rule) :
    w.Kept (w.keepRules name rules) := by
  cases name with
  | none => exact refl w
  | some name => exact ⟨rfl, rfl⟩

theorem addBinarizer (w : Workspace) (b g : String) (binarizer : Binarizer) :
    w.Kept (w.addBinarizer b g binarizer).workspace := by
  unfold Workspace.addBinarizer
  split
  · exact ⟨rfl, rfl⟩
  · exact refl w

/-- Only commands that make or change grammars have an effect on grammars. -/
theorem execute {command : Command} (hcommand : command.changesGrammars = false) :
    w.Kept (w.execute command).workspace := by
  cases command with
  | newGrammar g => cases hcommand
  | countTree g source => cases hcommand
  | countTrees g sources => cases hcommand
  | countTreebank g file limits => cases hcommand
  | loadTreebank g file limits normalise => cases hcommand
  | merge g other => cases hcommand
  | estimate g => cases hcommand
  | setSymbolCount g symbol count => cases hcommand
  | setRuleCount g rule count => cases hcommand
  | setWeight g rule => cases hcommand
  | checkCounts g =>
    refine withGrammar fun grammar => ?_
    split
    · exact refl w
    · exact refl w
  | showGrammar g => exact withGrammar fun _ => refl w
  | isNormalised g epsilon => exact withGrammar fun _ => refl w
  | weight g lhs rhs lexical => exact withGrammar fun _ => refl w
  | symbols g => exact withGrammar fun _ => refl w
  | rules g => exact withGrammar fun _ => refl w
  | binarize g strategy stem into =>
    refine withGrammar fun grammar => ?_
    dsimp only
    split
    · exact keepRules w into _
    · exact refl w
  | storeGrammar g file header => exact withGrammar fun grammar => store w file header grammar.rules
  | storeRules rules file header => exact store w file header (w.rulesNamed rules)
  | loadRules file into =>
    unfold Workspace.execute
    dsimp only
    split
    · exact keepRules w into _
    · exact refl w
  | newBinarizer b g strategy stem => exact addBinarizer w b g { strategy, stem }
  | runBinarizer b => exact withBinarizer fun _ _ => ⟨rfl, rfl⟩
  | startPass b => exact withBinarizer fun _ _ => ⟨rfl, rfl⟩
  | stick b symbol => exact withBinarizer fun _ _ => ⟨rfl, rfl⟩
  | mint b => exact withBinarizer fun _ _ => ⟨rfl, rfl⟩
  | fold b left right => exact withBinarizer fun _ _ => ⟨rfl, rfl⟩
  | binarizeRule b rule => exact withBinarizer fun _ _ => withRule fun _ => ⟨rfl, rfl⟩

end Kept

end Workspace
end TreebankGrammar
