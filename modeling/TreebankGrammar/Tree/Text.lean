import TreebankGrammar.Tree.Basic

/-!
# Bracketed text of a tree

The text of a terminal is its label.  The text of any other node is an opening bracket, the
label, the texts of the children with a blank before each, and a closing bracket.

Main definitions:

- `Tree.text`: the bracketed text.
- `BEq Tree`: two trees count as equal when they have the same text.
-/

namespace TreebankGrammar
namespace Tree

/-- Completes a text.  What is still to be written are the remaining children of each
open node, the innermost node first. -/
def writeOpen (written : String) : List (List Tree) → String
  | [] => written
  | [] :: outer => writeOpen (written ++ ")") outer
  | (.node l [] :: siblings) :: outer => writeOpen (written ++ " " ++ l) (siblings :: outer)
  | (.node l (c :: cs) :: siblings) :: outer =>
    writeOpen (written ++ " (" ++ l) ((c :: cs) :: siblings :: outer)

/-- The bracketed text of a tree. -/
def text : Tree → String
  | .node l [] => l
  | .node l (c :: cs) => writeOpen ("(" ++ l) [c :: cs]

/-- Two trees count as equal when they have the same text. -/
instance : BEq Tree :=
  ⟨fun a b => a.text == b.text⟩

/-- The form in which a tree is shown for inspection. -/
def shown (t : Tree) : String :=
  "Tree(" ++ t.text ++ ")"

example : (node "S" [node "NP" [node "dogs" []], node "VP" [node "bark" []]]).text =
    "(S (NP dogs) (VP bark))" := by
  simp [text, writeOpen]

end Tree
end TreebankGrammar
