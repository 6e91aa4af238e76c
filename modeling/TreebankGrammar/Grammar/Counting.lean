import TreebankGrammar.Grammar.Outcome
import TreebankGrammar.Text.Lines

/-!
# Counting

How trees, treebanks and other grammars are counted into a grammar.  A grammar whose weights
have been estimated takes no counts.

Main definitions:

- `Grammar.countTree`: counts the productions of one tree, all or none.
- `Grammar.countTrees` and `Grammar.countStream`: count trees up to the first that fails.
- `Grammar.countTreebank`: counts the trees of a treebank file.
- `Grammar.merge`: adds the counts of another grammar.
-/

namespace TreebankGrammar

/-- A tree to be counted, given by its text or as it is. -/
inductive TreeSource where
  | written (text : String)
  | built (candidate : Candidate)

/-- What is to be counted. -/
def TreeSource.candidate : TreeSource → Except ReadError Candidate
  | .written text => (Tree.read text).map Tree.toCandidate
  | .built c => .ok c

namespace Grammar

/-! ## Trees -/

/-- Counts each of the productions once, in order. -/
def addAll (g : Grammar) (ps : List Production) : Grammar :=
  ps.foldl (fun g p => g.add p 1) g

/-- Counts the production of each node with children and returns their number. -/
def countTree (g : Grammar) (c : Candidate) : Except Error (Grammar × Nat) :=
  if g.normalised then .error .frozen
  else
    match c.productions with
    | .error e => .error (.ofCollect e)
    | .ok ps => .ok (g.addAll ps, ps.length)

/-- Counts trees one after the other; each is looked at when its turn comes.  The result is the
number of trees, those counted before included. -/
def countFrom (counted : Nat) (g : Grammar) : List TreeSource → Outcome Nat
  | [] => .ok g counted
  | source :: rest =>
    match source.candidate with
    | .error e => .error g (.unreadable e)
    | .ok c =>
      match g.countTree c with
      | .error e => .error g e
      | .ok (g', _) => countFrom (counted + 1) g' rest

/-- Counts trees one after the other up to the first that fails, and returns their number. -/
def countStream (g : Grammar) (sources : List TreeSource) : Outcome Nat :=
  g.countFrom 0 sources

/-- Counts candidates one after the other up to the first that fails, and returns their number. -/
def countTrees (g : Grammar) (cs : List Candidate) : Outcome Nat :=
  g.countStream (cs.map .built)

/-! ## Treebanks -/

/-- The lines of a treebank file. -/
def corpusLines (d : Directory) (file : String) : Except Error Text.LineStream :=
  match d.readLines file with
  | .ok stream => .ok stream
  | .error .nullCharacter => .error .nullCharacter
  | .error cause => .error (.corpus (.unreadable file cause))

/-- Why the wanted trees of a treebank file cannot be read: a line holds none, or more lines are asked for
than can be decoded. -/
def corpusFailure? (file : String) (limits : Treebank.Limits) (stream : Text.LineStream) :
    Option Error :=
  match (Treebank.read limits stream.lines).failure with
  | some e => some (.line e)
  | none =>
    if stream.broken && Treebank.asksBeyond limits stream.lines then
      some (.corpus (.undecodable file))
    else none

/-- Counts the wanted trees of a treebank file and returns their number.  All of them are read
before the first is counted. -/
def countTreebank (g : Grammar) (d : Directory) (file : String) (limits : Treebank.Limits) :
    Outcome Nat :=
  if g.normalised then .error g .frozen
  else
    match corpusLines d file with
    | .error e => .error g e
    | .ok stream =>
      let reading := Treebank.read limits stream.lines
      let outcome : Outcome Nat :=
        match corpusFailure? file limits stream with
        | some e => .error g e
        | none =>
          let counted := g.countTrees (reading.trees.map Tree.toCandidate)
          match counted.result with
          | .error _ => counted
          | .ok trees =>
            { counted with
              notices := [.counted trees file counted.grammar.symbolCounts.size counted.grammar.size] }
      outcome.after (reading.discards.map .discarded)

/-! ## Other grammars -/

/-- The first nonterminal whose count is not the sum of its rules' counts. -/
def inconsistency? (g : Grammar) : Option Inconsistency :=
  (g.symbolCounts.keys ++ g.rows.keys).findSome? fun symbol =>
    if g.symbolCount symbol = g.rowTotal symbol then none
    else some (.sumMismatch symbol (g.symbolCount symbol) (g.rowTotal symbol))

/-- Checks that the count of each nonterminal is the sum of the counts of its rules. -/
def checkCounts (g : Grammar) : Except Error Unit :=
  match g.inconsistency? with
  | some i => .error i.error
  | none => .ok ()

/-- The grammar with all counts of another grammar added. -/
def addCounts (g other : Grammar) : Grammar :=
  other.tallies.foldl (fun g (p, tally) => g.add p tally.count) g

/-- Adds the counts of another grammar, whose counts must be consistent; neither
grammar may have been normalised. -/
def merge (g other : Grammar) : Except Error Grammar :=
  if g.normalised then .error .frozen
  else if other.normalised then .error .mergeFrozen
  else
    match other.checkCounts with
    | .error e => .error e
    | .ok () => .ok (g.addCounts other)

end Grammar
end TreebankGrammar
