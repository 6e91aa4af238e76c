import TreebankGrammar.CommandLine.Arguments
import TreebankGrammar.Error
import TreebankGrammar.Grammar.Estimation

/-!
# Conversion of a treebank

A run counts a treebank, estimates the weights of its grammar and writes the rules, and the
binarized rules if they are wanted.  The wanted trees are read before anything is written, and a
missing treebank counts as an empty one.  A setting without a value stops the run where it is needed.

Main definitions:

- `Failure`: why a run does not succeed.
- `Export`: one rule file to be written.
- `missingLimit`: the limit that counting needs and does not have.
- `convert`: the run with given options.
- `run`: the run with given arguments.
-/

namespace TreebankGrammar
namespace CommandLine

/-- Why a run does not succeed. -/
inductive Failure where
  | operation (cause : Error)
  | missing (cause : MissingValue)
deriving DecidableEq

/-- The wording of the failure, where it has one of its own. -/
def Failure.message : Failure → Option String
  | .operation cause => cause.message
  | .missing cause => some cause.message

/-- What a run leaves behind: the directory, what was reported, and whether it succeeded. -/
structure Report where
  directory : Directory
  notices : List Notice := []
  result : Except Failure Unit

/-- The run breaks off with the directory as it is. -/
def Report.failed (d : Directory) (notices : List Notice) (cause : Failure) : Report :=
  { directory := d, notices, result := .error cause }

/-- The report with notices in front of its own. -/
def Report.after (notices : List Notice) (report : Report) : Report :=
  { report with notices := notices ++ report.notices }

/-! ## Rule files -/

/-- A rule file to be written: its name, the remarks in its header, and how the rules are binarized,
if they are. -/
structure Export where
  file : String
  remarks : List String
  strategy : Option Strategy

/-- The first header line of each file. -/
def sourceRemark (o : Options) : String :=
  " PCFG estimated from " ++ o.input

/-- The remark on a binarized grammar. -/
def strategyRemark : Strategy → String
  | .naive => " binarized"
  | .shared => " binarized with shared nonterminals"

/-- The file of binarized rules, if it is wanted. -/
def binarizedExport (o : Options) (strategy : Strategy) (file : String) : List Export :=
  if file.isEmpty then []
  else [⟨file, [sourceRemark o, strategyRemark strategy], some strategy⟩]

/-- The rule files of a run with the given output, in the order in which they are written. -/
def exports (o : Options) (output : String) : List Export :=
  ⟨output, [sourceRemark o], none⟩ ::
    (binarizedExport o .naive o.binary ++ binarizedExport o .shared o.shared)

/-- The rules of a file, and what is reported about them. -/
def Export.rules (e : Export) (g : Grammar) (stem : String) :
    List Notice × Except SymbolInUse (List Rule) :=
  match e.strategy with
  | none => ([], .ok g.rules)
  | some strategy =>
    let outcome := g.binarize strategy stem
    (outcome.notices, outcome.result)

/-- Writes rule files one after the other up to the first that fails. -/
def writeAll (g : Grammar) (stem : String) (d : Directory) : List Export → Report
  | [] => { directory := d, result := .ok () }
  | e :: rest =>
    let (notices, result) := e.rules g stem
    match result with
    | .error cause => .failed d notices (.operation (.binarizer (.symbolInUse cause)))
    | .ok rules =>
      match RuleFile.store d e.file e.remarks rules with
      | .error cause => .failed d notices (.operation (.file cause))
      | .ok d => (writeAll g stem d rest).after notices

/-! ## Runs -/

/-- The limit that counting needs and does not have.  The number of trees is needed as soon as there is
a line, and the length as soon as there is a tree. -/
def missingLimit (o : Options) (d : Directory) : Option MissingValue :=
  match Grammar.corpusLines d o.input with
  | .error _ => none
  | .ok stream =>
    if o.trees.isNone && !stream.lines.isEmpty then some .trees
    else if o.length.isNone && !(Treebank.read o.limits stream.lines).trees.isEmpty then some .length
    else none

/-- Estimates the weights of a counted grammar and writes the rule files. -/
def finish (o : Options) (d : Directory) (g : Grammar) : Report :=
  let estimated := g.estimate
  match estimated.result, o.output with
  | .error cause, _ => .failed d estimated.notices (.operation (.grammar cause))
  | .ok (), none => .failed d estimated.notices (.missing .output)
  | .ok (), some output =>
    (writeAll estimated.grammar o.stem d (exports o output)).after estimated.notices

/-- The run with given options, all limits of which have the value they need. -/
def countAndFinish (o : Options) (d : Directory) : Report :=
  let counted := Grammar.empty.countTreebank d o.input o.limits
  match counted.result with
  | .ok _ => (finish o d counted.grammar).after counted.notices
  | .error (.corpus cause) =>
    (finish o d counted.grammar).after (counted.notices ++ [.emptyGrammar cause])
  | .error cause => .failed d counted.notices (.operation (.grammar cause))

/-- The run with given options. -/
def convert (o : Options) (d : Directory) : Report :=
  match missingLimit o d with
  | some cause => .failed d [] (.missing cause)
  | none => countAndFinish o d

/-- The run with given arguments. -/
def run (args : List String) (d : Directory) : Except Stop (Options × Report) :=
  match Options.parse args with
  | .error e => .error e
  | .ok o => .ok (o, convert o d)

/-- Whether a run shows a notice: warnings always, and other information if it is verbose. -/
def shows (o : Options) (n : Notice) : Bool :=
  match n.level with
  | .warning => true
  | .info => o.verbose
  | .debug => false

/-- The line of a notice. -/
def noticeLine (n : Notice) : String :=
  n.level.name ++ ":root:" ++ n.text ++ "\n"

/-- What a run shows of the notices of a report. -/
def shownNotices (o : Options) (report : Report) : String :=
  String.join ((report.notices.filter (shows o)).map noticeLine)

end CommandLine
end TreebankGrammar
