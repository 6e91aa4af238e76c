import TreebankGrammar.Rule.Production
import TreebankGrammar.Text.Quoted
import TreebankGrammar.Tree.Text

/-!
# Candidate trees

What is offered as a tree for counting need not be one: a text or any other value may stand where a tree
is expected, at the top or among the children of a node, and labels may be empty.  The productions
of a candidate are collected only if it is a proper tree as far as counting looks at it.  The
error shows the value that is no tree, which itself can fail.

Main definitions:

- `Candidate`: a text or another value that is no tree, or a node whose children are candidates.
- `Candidate.toTree?` and `Candidate.compare?`: a candidate looked at as a tree, and two compared.
- `Candidate.shown`: how a candidate is shown inside a message.
- `CollectError`: why the productions of a candidate cannot be collected.
- `Candidate.productions`: the production of each node with children, in preorder.
-/

namespace TreebankGrammar

/-- Why a value cannot be shown inside a message: the error that it raises instead. -/
structure ShowError where
  kind : String
  message : String
deriving DecidableEq

/-- The error of a value that is asked whether it is a terminal and is no tree. -/
def ShowError.noTree (type : String) : ShowError where
  kind := "AttributeError"
  message := "'" ++ type ++ "' object has no attribute 'is_terminal'"

/-- What may be offered as a tree. -/
inductive Candidate where
  | text (s : String)
  /-- A value of another type that is no tree, by the name of its type and by how it is shown. -/
  | other (type : String) (shown : Except ShowError String)
  | node (label : String) (children : List Candidate)

/-- Why the productions of a candidate cannot be collected. -/
inductive Malformed where
  /-- A value that is no tree is offered as a whole tree. -/
  | notTree (shown : String)
  /-- A node with children has an empty label. -/
  | emptyLabel
  /-- A value that is no tree stands among the children of a node. -/
  | childNotTree (label shown : String)
  /-- A child of a node has an empty label. -/
  | childEmptyLabel (label : String)
deriving DecidableEq

/-- The wording of the error. -/
def Malformed.message : Malformed → String
  | .notTree shown => "Not a tree: " ++ shown
  | .emptyLabel => "Nonterminal node with empty label"
  | .childNotTree label shown => "Child of " ++ label ++ " is not a tree: " ++ shown
  | .childEmptyLabel label => "Child of " ++ label ++ " has an empty label"

/-- What is raised when the productions of a candidate cannot be collected. -/
inductive CollectError where
  | malformed (cause : Malformed)
  /-- The value that is no tree cannot be shown in the message. -/
  | unshown (cause : ShowError)
deriving DecidableEq

/-! ## Trees as candidates -/

mutual

/-- A tree offered as a tree. -/
def Tree.toCandidate : Tree → Candidate
  | .node l cs => .node l (Tree.toCandidates cs)

/-- A sequence of trees offered as trees. -/
def Tree.toCandidates : List Tree → List Candidate
  | [] => []
  | t :: ts => t.toCandidate :: Tree.toCandidates ts

end

namespace Candidate

mutual

/-- The tree that a candidate is, if there is nothing else in it. -/
def toTree? : Candidate → Option Tree
  | .text _ => none
  | .other .. => none
  | .node l cs => (toTrees? cs).map (.node l)

/-- The trees that candidates are, if there is nothing else in them. -/
def toTrees? : List Candidate → Option (List Tree)
  | [] => some []
  | c :: cs => do
    let t ← c.toTree?
    let ts ← toTrees? cs
    return t :: ts

end

/-- Candidates count as equal when they are equal texts, or trees that count as equal.  Other values are
not compared. -/
def same : Candidate → Candidate → Bool
  | .text s, .text t => s == t
  | a, b =>
    match a.toTree?, b.toTree? with
    | some t, some u => t == u
    | _, _ => false

/-- Whether a candidate is a text or a tree with nothing else inside. -/
def isProper : Candidate → Bool
  | .text _ => true
  | c => c.toTree?.isSome

/-- Whether two candidates count as equal; there is no answer when one of them is neither a text nor a
tree, or something else stands inside a tree. -/
def compare? (a b : Candidate) : Option Bool :=
  if a.isProper && b.isProper then some (a.same b) else none

/-! ## Showing candidates -/

mutual

/-- The type of the first value in a candidate that is no tree. -/
def firstType? : Candidate → Option String
  | .text _ => some "str"
  | .other type _ => some type
  | .node _ cs => firstTypeIn? cs

/-- The type of the first value in candidates that is no tree. -/
def firstTypeIn? : List Candidate → Option String
  | [] => none
  | c :: cs => c.firstType?.or (firstTypeIn? cs)

end

/-- How a candidate is shown: a text in quotes, a tree by its brackets.  A tree with something else inside
cannot be shown, because this is asked whether it is a terminal. -/
def shown (c : Candidate) : Except ShowError String :=
  match c with
  | .text s => .ok (Text.quoted s)
  | .other _ shown => shown
  | .node .. =>
    match c.toTree? with
    | some t => .ok t.shown
    | none => .error (.noTree (c.firstType?.getD ""))

/-- A list of candidates as a value that is no tree. -/
def list (cs : List Candidate) : Candidate :=
  .other "list" (do return "[" ++ ", ".intercalate (← cs.mapM shown) ++ "]")

/-- The error for a candidate that is no tree, where the message shows it. -/
def refused (c : Candidate) (cause : String → Malformed) : CollectError :=
  match c.shown with
  | .ok shown => .malformed (cause shown)
  | .error e => .unshown e

/-! ## Size -/

mutual

/-- The number of nodes and other values of a candidate. -/
def size : Candidate → Nat
  | .text _ => 1
  | .other .. => 1
  | .node _ cs => 1 + sizeAll cs

/-- The number of nodes and other values of a sequence of candidates. -/
def sizeAll : List Candidate → Nat
  | [] => 0
  | c :: cs => c.size + sizeAll cs

end

@[simp]
theorem sizeAll_append (cs ds : List Candidate) : sizeAll (cs ++ ds) = sizeAll cs + sizeAll ds := by
  induction cs with
  | nil => simp [sizeAll]
  | cons c cs ih => simp [sizeAll, ih, Nat.add_assoc]

/-! ## Productions -/

/-- The label of a node, or the text that stands in its place; another value has none. -/
def label : Candidate → String
  | .text s => s
  | .other .. => ""
  | .node l _ => l

/-- Whether a candidate is a node without children. -/
def isTerminal : Candidate → Bool
  | .node _ [] => true
  | _ => false

/-- Checks one child of a node with the given label. -/
def checkChild (parent : String) : Candidate → Except CollectError Unit
  | .node l _ => if l.isEmpty then .error (.malformed (.childEmptyLabel parent)) else .ok ()
  | c => .error (c.refused (.childNotTree parent))

/-- Checks the label of a node with children, then the children from left to right. -/
def checkNode (l : String) (children : List Candidate) : Except CollectError Unit :=
  if l.isEmpty then .error (.malformed .emptyLabel) else children.forM (checkChild l)

/-- The body of a node with children: it is lexical when its only child is a terminal. -/
def bodyOf (children : List Candidate) : Body where
  rhs := children.map label
  lexical := decide (children.length = 1) && children.all isTerminal
  length_of_lexical h := by simp_all

/-- Collects the productions of the pending candidates in order, each node before its children; the
productions collected so far are kept in reverse order. -/
def collect (collected : List Production) : List Candidate → Except CollectError (List Production)
  | [] => .ok collected.reverse
  | .text s :: _ => .error ((text s).refused .notTree)
  | .other type shown :: _ => .error ((other type shown).refused .notTree)
  | .node _ [] :: pending => collect collected pending
  | .node l (c :: cs) :: pending =>
    match checkNode l (c :: cs) with
    | .error e => .error e
    | .ok () =>
      collect (.ofBody l (bodyOf (c :: cs)) :: collected) ((c :: cs) ++ pending)
termination_by pending => sizeAll pending
decreasing_by
  · simp only [sizeAll, size]
    omega
  · simp only [sizeAll_append, sizeAll, size]
    omega

/-- The production of each node with children, in preorder. -/
def productions (c : Candidate) : Except CollectError (List Production) :=
  collect [] [c]

end Candidate
end TreebankGrammar
