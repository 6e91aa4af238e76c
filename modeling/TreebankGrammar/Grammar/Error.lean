import TreebankGrammar.Directory
import TreebankGrammar.Tree.Candidate
import TreebankGrammar.Treebank

/-!
# Errors of grammars

Why a grammar takes no counts, gives no weights, or has inconsistent counts.

Main definitions:

- `CorpusError`: why a treebank file gives no lines.
- `Inconsistency`: how the counts of a grammar disagree.
- `Inconsistency.isWritable`: whether the disagreement can be put into words.
- `Grammar.Error`: why an operation on a grammar fails.
-/

namespace TreebankGrammar

/-- Why a treebank file gives no lines. -/
inductive CorpusError where
  | unreadable (file : String) (cause : FileError)
  | undecodable (file : String)
deriving DecidableEq

/-- The wording of the error. -/
def CorpusError.message : CorpusError → String
  | .unreadable file cause => "Cannot read treebank " ++ file ++ ": " ++ cause.message
  | .undecodable file => "Cannot decode treebank " ++ file ++ ": <decode error>"

/-- How the counts of a grammar disagree. -/
inductive Inconsistency where
  /-- The count of a nonterminal is not the sum of the counts of its rules. -/
  | sumMismatch (symbol : String) (count total : Int)
  /-- A nonterminal with a row of rules was not seen. -/
  | notPositive (symbol : String) (count : Int)
deriving DecidableEq

/-- The wording of the disagreement. -/
def Inconsistency.message : Inconsistency → String
  | .sumMismatch symbol count total =>
    "Count of " ++ symbol ++ " is " ++ toString count ++ " but its rules sum to " ++ toString total
  | .notPositive symbol count =>
    "Nonterminal " ++ symbol ++ " has rules but count " ++ toString count

/-- The numbers in the wording. -/
def Inconsistency.numbers : Inconsistency → List Int
  | .sumMismatch _ count total => [count, total]
  | .notPositive _ count => [count]

/-- The most digits with which a number is written into a message. -/
def maxDigits : Nat :=
  4300

-- The bound is too large to be computed by unfolding.
/-- Whether the numbers of a disagreement are short enough for its wording. -/
@[irreducible]
def Inconsistency.isWritable (i : Inconsistency) : Bool :=
  i.numbers.all fun n => decide (n.natAbs < Nat.pow 10 maxDigits)

/-- Why an operation on a grammar fails. -/
inductive Grammar.Error where
  /-- Counts are added to a normalised grammar. -/
  | frozen
  /-- The counts of a normalised grammar are to be merged. -/
  | mergeFrozen
  /-- A text that is to be counted as a tree denotes none. -/
  | unreadable (cause : ReadError)
  | malformed (cause : Malformed)
  /-- A value that is no tree cannot be shown in the message. -/
  | unshown (cause : ShowError)
  | corpus (cause : CorpusError)
  /-- The name of a treebank file contains the null character, so that no file is looked for. -/
  | nullCharacter
  | line (cause : Treebank.LineError)
  | inconsistent (cause : Inconsistency)
  /-- A number is too long for the message that it belongs to. -/
  | tooManyDigits
  /-- A weight is too large for a floating-point number. -/
  | overflow
deriving DecidableEq

/-- Why the productions of a tree cannot be collected, as an error of a grammar. -/
def Grammar.Error.ofCollect : CollectError → Grammar.Error
  | .malformed cause => .malformed cause
  | .unshown cause => .unshown cause

/-- The wording of the error. -/
def Grammar.Error.message : Grammar.Error → String
  | .frozen => "Grammar has already been normalised; counts can no longer change."
  | .mergeFrozen => "Can't merge a normalised grammar."
  | .unreadable cause => cause.message
  | .malformed cause => cause.message
  | .unshown cause => cause.message
  | .corpus cause => cause.message
  | .nullCharacter => FileError.nullCharacter.message
  | .line cause => cause.message
  | .inconsistent cause => cause.message
  | .tooManyDigits => "Exceeds the limit (" ++ toString maxDigits ++ " digits) for integer string " ++
    "conversion; use sys.set_int_max_str_digits() to increase the limit"
  | .overflow => "integer division result too large for a float"

/-- The error with which a disagreement is reported. -/
def Inconsistency.error (i : Inconsistency) : Grammar.Error :=
  if i.isWritable then .inconsistent i else .tooManyDigits

end TreebankGrammar
