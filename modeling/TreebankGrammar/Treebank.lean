import TreebankGrammar.Tree.Reader

/-!
# Treebanks

A treebank is a sequence of lines.  Blank lines and lines that begin with a number sign are
skipped; every other line holds one bracketed tree.

Main definitions:

- `Treebank.Limits`: which trees of a treebank are wanted.
- `Treebank.Reading`: what reading a treebank gives, also when it breaks off.
- `Treebank.read`: the reading of a sequence of lines.
- `Treebank.asksBeyond`: whether a line is asked for when all of them have been taken.
-/

namespace TreebankGrammar
namespace Treebank

/-- Which trees are wanted: at most so many lines with a tree are considered, and a tree with more
words than the bound is discarded. -/
structure Limits where
  maxWords : Option Nat := none
  maxTrees : Option Nat := none
deriving DecidableEq

/-- The limits given by two numbers: a length bounds the words when it is positive, and a number of
trees bounds the trees unless it is negative. -/
def Limits.ofInts (length trees : Int) : Limits where
  maxWords := if 0 < length then some length.toNat else none
  maxTrees := if 0 ≤ trees then some trees.toNat else none

/-- The characters that start a comment line. -/
def commentMark : Char :=
  '#'

/-- Whether a stripped line holds nothing to read: it is empty or a comment. -/
def isSkipped (line : String) : Bool :=
  line.isEmpty || line.toList.head? == some commentMark

/-- A line that does not hold a tree, and why. -/
structure LineError where
  line : Nat
  cause : ReadError
deriving DecidableEq

/-- The wording of the error. -/
def LineError.message (e : LineError) : String :=
  "Line " ++ toString e.line ++ ": " ++ e.cause.message

/-- A tree that was left out because of its number of words. -/
structure Discard where
  words : Nat
  line : Nat
deriving DecidableEq

/-- What reading gives: the wanted trees in order, the trees left out, and the
error at which reading broke off, if it did. -/
structure Reading where
  trees : List Tree := []
  discards : List Discard := []
  failure : Option LineError := none

/-- Whether a number of words exceeds a bound. -/
def exceeds (words : Nat) : Option Nat → Bool
  | none => false
  | some bound => bound < words

/-- Puts the tree of an earlier line in front of a reading, or leaves it out. -/
def Reading.prepend (maxWords : Option Nat) (line : Nat) (tree : Tree) (later : Reading) : Reading :=
  let words := tree.yield.length
  if exceeds words maxWords then { later with discards := ⟨words, line⟩ :: later.discards }
  else { later with trees := tree :: later.trees }

/-- Reads the lines from the given line number on, of which at most so many may still hold a tree. -/
def readFrom (maxWords : Option Nat) (remaining : Option Nat) (line : Nat) : List String → Reading
  | [] => {}
  | text :: rest =>
    if remaining = some 0 then {}
    else if isSkipped (Text.strip text) then readFrom maxWords remaining (line + 1) rest
    else
      match Tree.read (Text.strip text) with
      | .error cause => { failure := some ⟨line, cause⟩ }
      | .ok tree =>
        (readFrom maxWords (remaining.map (· - 1)) (line + 1) rest).prepend maxWords line tree

/-- The reading of a sequence of lines, which are numbered from one. -/
def read (limits : Limits) (lines : List String) : Reading :=
  readFrom limits.maxWords limits.maxTrees 1 lines

/-- Whether one more line is asked for behind the given ones, of which at most so many may still hold a
tree.  Reading ends at the line after the last wanted tree, and at a line that holds none. -/
def asksFrom (remaining : Option Nat) : List String → Bool
  | [] => true
  | text :: rest =>
    if remaining = some 0 then false
    else if isSkipped (Text.strip text) then asksFrom remaining rest
    else
      match Tree.read (Text.strip text) with
      | .error _ => false
      | .ok _ => asksFrom (remaining.map (· - 1)) rest

/-- Whether reading asks for one more line when it has taken all the given ones. -/
def asksBeyond (limits : Limits) (lines : List String) : Bool :=
  asksFrom limits.maxTrees lines

end Treebank
end TreebankGrammar
