import TreebankGrammar.Tree.Basic
import TreebankGrammar.Tree.Token

/-!
# Reading bracketed text

A bracketed text denotes a tree: after an opening bracket comes the label of the node, then its
children, each a word or again a bracketed node, then the closing bracket.  One bracket
without a label may stand around the whole tree.

Main definitions:

- `ReadError`: why a text denotes no tree.
- `Reader.State`: how far the reading of one tree has come.
- `Tree.read`: the tree that a text denotes.
-/

namespace TreebankGrammar

/-! ## Errors -/

/-- Why a text denotes no tree. -/
inductive ReadError where
  /-- The text holds no token. -/
  | empty
  /-- The text begins with something else than an opening bracket. -/
  | noBracket (text : String)
  /-- A bracket is still open where the text ends. -/
  | unbalanced
  /-- A bracket is closed directly after it is opened. -/
  | emptyBracket
  /-- A bracket without a label does not stand around the whole tree, or not around one tree. -/
  | unlabelled
  /-- A labelled bracket has no children. -/
  | noChildren (label : String)
  /-- The tree is followed by more tokens. -/
  | trailing (rest : List Token)
deriving DecidableEq

/-- The wording of an error. -/
def ReadError.message : ReadError → String
  | .empty => "Empty tree string"
  | .noBracket text => "Tree must start with a bracket: " ++ text
  | .unbalanced => "Unbalanced brackets"
  | .emptyBracket => "Empty bracket"
  | .unlabelled => "Unlabelled bracket must wrap exactly one tree at the top"
  | .noChildren label => "Nonterminal " ++ label ++ " has no children"
  | .trailing rest => "Trailing material after tree: " ++ Token.joined rest

/-! ## Open brackets -/

namespace Reader

/-- An open bracket: its label, absent for a bracket without one, and its children so far in
reverse order. -/
structure Frame where
  label : Option String
  children : List Tree

/-- Adds a child on the right. -/
def Frame.push (frame : Frame) (child : Tree) : Frame :=
  { frame with children := child :: frame.children }

/-- The tree of a bracket that is closed.  A bracket without a label must be the outermost one and
hold one tree, which stands for itself. -/
def Frame.close (frame : Frame) (outermost : Bool) : Except ReadError Tree :=
  match frame.label, frame.children with
  | none, [child] => if outermost then .ok child else .error .unlabelled
  | none, _ => .error .unlabelled
  | some l, [] => .error (.noChildren l)
  | some l, children => .ok (.node l children.reverse)

/-! ## Reading token by token -/

/-- How far the reading of one tree has come: an opening bracket has just been read and its label
is still to come, or the contents of a bracket are being read.  The other open brackets
are listed from the innermost one on. -/
inductive State where
  | opened (outer : List Frame)
  | within (frame : Frame) (outer : List Frame)

/-- What reading one token gives: a state from which reading goes on, or the whole tree. -/
inductive Progress where
  | reading (state : State)
  | complete (tree : Tree)

/-- A closed bracket hands its tree to the bracket around it, or completes the reading. -/
def Progress.ofClosed (tree : Tree) : List Frame → Progress
  | [] => .complete tree
  | frame :: outer => .reading (.within (frame.push tree) outer)

/-- Reads one token. -/
def State.step : State → Token → Except ReadError Progress
  | .opened outer, .opening => .ok (.reading (.opened (⟨none, []⟩ :: outer)))
  | .opened _, .closing => .error .emptyBracket
  | .opened outer, .word l => .ok (.reading (.within ⟨some l, []⟩ outer))
  | .within frame outer, .opening => .ok (.reading (.opened (frame :: outer)))
  | .within frame outer, .closing =>
    match frame.close outer.isEmpty with
    | .ok tree => .ok (.ofClosed tree outer)
    | .error e => .error e
  | .within frame outer, .word w => .ok (.reading (.within (frame.push (.node w [])) outer))

/-- Reads all tokens from a state on.  The tree must end where the tokens end. -/
def run : State → List Token → Except ReadError Tree
  | _, [] => .error .unbalanced
  | state, token :: rest =>
    match state.step token with
    | .error e => .error e
    | .ok (.reading next) => run next rest
    | .ok (.complete tree) => if rest.isEmpty then .ok tree else .error (.trailing rest)

/-- The tree that a sequence of tokens denotes; the given text is quoted when it does not begin with
a bracket. -/
def ofTokens (text : String) : List Token → Except ReadError Tree
  | [] => .error .empty
  | .opening :: rest => run (.opened []) rest
  | _ => .error (.noBracket text)

end Reader

/-- The tree that a text denotes. -/
def Tree.read (s : String) : Except ReadError Tree :=
  Reader.ofTokens (Text.strip s) (Token.ofText s)

end TreebankGrammar
