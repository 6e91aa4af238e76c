import TreebankGrammar.Binarization.Basic
import TreebankGrammar.Treebank

/-!
# Options of the command line

What the command is asked to do: which treebank to count, and which rule files to write.

Main definitions:

- `Options`: the settings of one run.
- `MissingValue`: why a run breaks off at a setting without a value.
- `OptionName`: the options that may be given.
-/

namespace TreebankGrammar
namespace CommandLine

/-- The settings of one run.  The output and the limits may be given without a value, and a run
goes on until it needs one. -/
structure Options where
  input : String
  output : Option String
  binary : String := ""
  shared : String := ""
  length : Option Int := some 0
  trees : Option Int := some (-1)
  stem : String := Grammar.defaultStem
  verbose : Bool := false
deriving DecidableEq

/-- The limits under which the treebank is read; one without a value bounds nothing. -/
def Options.limits (o : Options) : Treebank.Limits :=
  .ofInts (o.length.getD 0) (o.trees.getD (-1))

/-- A setting without a value, which is needed. -/
inductive MissingValue where
  | output
  | length
  | trees
deriving DecidableEq

/-- The wording of the error. -/
def MissingValue.message : MissingValue → String
  | .output => "expected str, bytes or os.PathLike object, not list"
  | .length => "'>' not supported between instances of 'list' and 'int'"
  | .trees => "'>=' not supported between instances of 'list' and 'int'"

/-- The options that may be given. -/
inductive OptionName where
  | binary
  | shared
  | length
  | trees
  | stem
  | verbose
  | help
deriving DecidableEq

/-- All options. -/
def OptionName.all : List OptionName :=
  [.help, .binary, .shared, .length, .trees, .stem, .verbose]

/-- The spelling of an option. -/
def OptionName.spelling : OptionName → String
  | .binary => "--binary"
  | .shared => "--shared"
  | .length => "--length"
  | .trees => "--n"
  | .stem => "--prefix"
  | .verbose => "--verbose"
  | .help => "--help"

end CommandLine
end TreebankGrammar
