import TreebankGrammar.Binarization.Binarizer
import TreebankGrammar.Grammar.Error
import TreebankGrammar.RuleFile

/-!
# Errors

The errors of all operations under one type.

Main definitions:

- `Error`: why an operation fails.
- `Error.message`: its wording, if it has one of its own.
-/

namespace TreebankGrammar

/-- Why an operation fails. -/
inductive Error where
  | unreadable (cause : ReadError)
  | treebank (cause : Treebank.LineError)
  | malformed (cause : Malformed)
  /-- A value that is no tree cannot be shown in the message. -/
  | unshown (cause : ShowError)
  /-- A candidate with a text in it is looked at as a tree, and the text is asked whether it is a
  terminal. -/
  | textInTree
  | lexical (cause : LexicalError)
  | grammar (cause : Grammar.Error)
  | binarizer (cause : Binarizer.Error)
  | file (cause : FileError)
  | undecodable
  | ruleLine (cause : RuleFile.LineError)
  /-- Nothing goes by a name. -/
  | unknown (name : String)
deriving DecidableEq

namespace Error

/-- Why a rule file cannot be loaded, as an error. -/
def ofLoad : RuleFile.LoadError → Error
  | .text (.file cause) => .file cause
  | .text .undecodable => .undecodable
  | .line cause => .ruleLine cause

/-- Why the productions of a tree cannot be collected, as an error. -/
def ofCollect : CollectError → Error
  | .malformed cause => .malformed cause
  | .unshown cause => .unshown cause

/-- The wording of an error; that of a text that is not well-formed UTF-8 is left open. -/
def message : Error → Option String
  | .unreadable cause => some cause.message
  | .treebank cause => some cause.message
  | .malformed cause => some cause.message
  | .unshown cause => some cause.message
  | .textInTree => some (ShowError.noTree "str").message
  | .lexical cause => some cause.message
  | .grammar cause => some cause.message
  | .binarizer cause => some cause.message
  | .file cause => some cause.message
  | .undecodable => none
  | .ruleLine cause => some cause.message
  | .unknown name => some (Text.quoted name)

end Error
end TreebankGrammar
