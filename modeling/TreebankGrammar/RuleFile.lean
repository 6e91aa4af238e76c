import TreebankGrammar.Directory
import TreebankGrammar.Number.Reading
import TreebankGrammar.Rule.Basic
import TreebankGrammar.Text.Lines
import TreebankGrammar.Treebank

/-!
# Rule files

A rule file has one rule on each line: weight, left-hand side, arrow and right-hand side.  Header
lines begin with a number sign.  Whether a rule is lexical is not written; a rule read back is
lexical when it has a single symbol on the right that is the left-hand side of no rule of the file.

Main definitions:

- `RuleFile.render`: the text of a rule file.
- `RuleFile.parse`: the rules of a text.
- `RuleFile.store` and `RuleFile.load`: the same for a file of a directory.
-/

namespace TreebankGrammar
namespace RuleFile

/-! ## Writing -/

/-- The text with its line end. -/
def lineOf (s : String) : String :=
  s ++ "\n"

/-- A header line. -/
def headerLine (s : String) : String :=
  lineOf ("#" ++ s)

/-- The text of a rule file: the header lines, then the rules. -/
def render (header : List String) (rules : List Rule) : String :=
  String.join (header.map headerLine ++ rules.map fun r => lineOf r.text)

/-- Writes a rule file. -/
def store (d : Directory) (file : String) (header : List String) (rules : List Rule) :
    Except FileError Directory :=
  d.write file (render header rules)

/-! ## Reading -/

/-- Why a text is not a rule file. -/
inductive LineError where
  /-- A line lacks a part, or its third word is not the arrow. -/
  | notRule (line : Nat) (file text : String)
  /-- The first word of a line is not a number. -/
  | badWeight (line : Nat) (file word : String)
deriving DecidableEq

/-- The wording of the error. -/
def LineError.message : LineError → String
  | .notRule line file text =>
    "Line " ++ toString line ++ " of " ++ file ++ " is not a rule: " ++ text
  | .badWeight line file word =>
    "Line " ++ toString line ++ " of " ++ file ++ " has a bad weight: " ++ word

/-- Why a rule file cannot be loaded. -/
inductive LoadError where
  | text (cause : TextError)
  | line (cause : LineError)
deriving DecidableEq

/-- What a line of a rule file says. -/
structure Entry where
  lhs : String
  rhs : List String
  weight : Weight

/-- The entry of one stripped line. -/
def readEntry (file : String) (line : Nat) (text : String) : Except LineError Entry :=
  match Text.words text with
  | weight :: lhs :: mark :: first :: rest =>
    if mark = Rule.arrow then
      match Binary64.read? weight with
      | some w => .ok ⟨lhs, first :: rest, w⟩
      | none => .error (.badWeight line file weight)
    else .error (.notRule line file text)
  | _ => .error (.notRule line file text)

/-- The entries of the lines from the given line number on. -/
def readEntries (file : String) (line : Nat) : List String → Except LineError (List Entry)
  | [] => .ok []
  | text :: rest =>
    if Treebank.isSkipped (Text.strip text) then readEntries file (line + 1) rest
    else
      match readEntry file line (Text.strip text) with
      | .error e => .error e
      | .ok entry =>
        match readEntries file (line + 1) rest with
        | .error e => .error e
        | .ok entries => .ok (entry :: entries)

/-- The rule of an entry in a file with the given left-hand sides. -/
def Entry.toRule (lhss : List String) (e : Entry) : Rule :=
  let body : Body :=
    match e.rhs with
    | [symbol] => if symbol ∈ lhss then .phrasal [symbol] else .ofWord symbol
    | rhs => .phrasal rhs
  .ofProduction (.ofBody e.lhs body) e.weight

/-- The rules of the lines of a rule file. -/
def parseLines (file : String) (lines : List String) : Except LineError (List Rule) :=
  match readEntries file 1 lines with
  | .error e => .error e
  | .ok entries => .ok (entries.map (Entry.toRule (entries.map Entry.lhs)))

/-- The rules of the text of a rule file. -/
def parse (file text : String) : Except LineError (List Rule) :=
  parseLines file (Text.lines text)

/-- The rules of a rule file.  A line that is no rule is reported before what cannot be decoded behind
it. -/
def load (d : Directory) (file : String) : Except LoadError (List Rule) :=
  match d.readLines file with
  | .error e => .error (.text (.file e))
  | .ok stream =>
    match parseLines file stream.lines with
    | .error e => .error (.line e)
    | .ok rules => if stream.broken then .error (.text .undecodable) else .ok rules

end RuleFile
end TreebankGrammar
