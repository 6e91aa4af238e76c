import TreebankGrammar.Binarization.Binarizer
import TreebankGrammar.Directory

/-!
# Workspaces

A workspace holds a directory and any number of named grammars, binarizers and rule lists.  A
binarizer stays with the grammar it was made for, also when the name of that
grammar is given to another one.

Main definitions:

- `AssignedBinarizer`: a binarizer and the grammar it belongs to.
- `Workspace`: everything that commands work on.
-/

namespace TreebankGrammar

/-- A binarizer and the grammar it belongs to. -/
structure AssignedBinarizer where
  /-- The position of the grammar among the grammars of the workspace. -/
  grammar : Nat
  binarizer : Binarizer

/-- The directory, all grammars ever made, and what the names of grammars, binarizers and rule
lists stand for. -/
structure Workspace where
  directory : Directory := {}
  grammars : Array Grammar := #[]
  grammarNames : Table String Nat := .empty
  binarizers : Table String AssignedBinarizer := .empty
  ruleLists : Table String (List Rule) := .empty

namespace Workspace

/-- The grammar at a position. -/
def grammarAt (w : Workspace) (position : Nat) : Grammar :=
  w.grammars.getD position .empty

/-- The grammar with a name, if there is one. -/
def grammar? (w : Workspace) (name : String) : Option Grammar :=
  (w.grammarNames.get? name).map w.grammarAt

/-- Gives a name to a further grammar. -/
def addGrammar (w : Workspace) (name : String) (g : Grammar) : Workspace :=
  { w with
    grammars := w.grammars.push g
    grammarNames := w.grammarNames.insert name w.grammars.size }

/-- Replaces the grammar with a name, if there is one, by what has become of it. -/
def setGrammar (w : Workspace) (name : String) (g : Grammar) : Workspace :=
  match w.grammarNames.get? name with
  | some position => { w with grammars := w.grammars.setIfInBounds position g }
  | none => w

/-- The rules with a name; a name without rules stands for none. -/
def rulesNamed (w : Workspace) (name : String) : List Rule :=
  w.ruleLists.getD name []

/-- Keeps rules under a name, if one is given. -/
def keepRules (w : Workspace) (name : Option String) (rules : List Rule) : Workspace :=
  match name with
  | some name => { w with ruleLists := w.ruleLists.insert name rules }
  | none => w

end Workspace
end TreebankGrammar
