import TreebankGrammar.Main
import TreebankGrammar.Tree.Recursion
import TreebankGrammar.Workspace.Execution
import TreebankGrammar.Proofs.Binarization.FreshNames
import TreebankGrammar.Proofs.Binarization.PassStep
import TreebankGrammar.Proofs.Binarization.Moves
import TreebankGrammar.Proofs.Binarization.Expansion
import TreebankGrammar.Proofs.Binarization.DerivationTree
import TreebankGrammar.Proofs.Binarization.Unfolding
import TreebankGrammar.Proofs.Binarization.Restoration
import TreebankGrammar.Proofs.Binarization.Sharing
import TreebankGrammar.Proofs.Binarization.BinaryForm
import TreebankGrammar.Proofs.Binarization.PrefixSharing
import TreebankGrammar.Proofs.Binarization.WrittenNames
import TreebankGrammar.Proofs.Binarization.Histories
import TreebankGrammar.Proofs.Binarization.FreeNumbers
import TreebankGrammar.Proofs.CommandLine.Files
import TreebankGrammar.Proofs.CommandLine.Reloading
import TreebankGrammar.Proofs.Directory
import TreebankGrammar.Proofs.Grammar.Consistency
import TreebankGrammar.Proofs.Grammar.Estimation
import TreebankGrammar.Proofs.Grammar.Merging
import TreebankGrammar.Proofs.Grammar.Shards
import TreebankGrammar.Proofs.Grammar.Treebanks
import TreebankGrammar.Proofs.Grammar.Order
import TreebankGrammar.Proofs.Grammar.Logs
import TreebankGrammar.Proofs.Grammar.Growth
import TreebankGrammar.Proofs.Grammar.TreeSymbols
import TreebankGrammar.Proofs.Grammar.FirstMatch
import TreebankGrammar.Proofs.Grammar.AllOrNothing
import TreebankGrammar.Proofs.Grammar.Rejection
import TreebankGrammar.Proofs.Grammar.MergedTables
import TreebankGrammar.Proofs.Number.Nearest
import TreebankGrammar.Proofs.Number.Rounding
import TreebankGrammar.Proofs.Number.RoundTrip
import TreebankGrammar.Proofs.Number.Overflow
import TreebankGrammar.Proofs.RuleFile.RoundTrip
import TreebankGrammar.Proofs.RuleFile.Normalization
import TreebankGrammar.Proofs.RuleFile.Flags
import TreebankGrammar.Proofs.RuleFile.Format
import TreebankGrammar.Proofs.Text.Lines
import TreebankGrammar.Proofs.Tree.Labels
import TreebankGrammar.Proofs.Tree.Equality
import TreebankGrammar.Proofs.Tree.Malformed
import TreebankGrammar.Proofs.Tree.Reading
import TreebankGrammar.Proofs.Tree.Traversals
import TreebankGrammar.Proofs.Tree.Printing
import TreebankGrammar.Proofs.Tree.Productions
import TreebankGrammar.Proofs.Tree.Brackets
import TreebankGrammar.Proofs.Treebank.Reading
import TreebankGrammar.Proofs.Treebank.Writing
import TreebankGrammar.Proofs.Treebank.Numbering
import TreebankGrammar.Proofs.Workspace.Runs
import TreebankGrammar.Proofs.Workspace.Logs
import TreebankGrammar.Proofs.Workspace.Likelihood
import TreebankGrammar.Proofs.Workspace.Freezing
import TreebankGrammar.Proofs.Grammar.Addition
import TreebankGrammar.Proofs.Tree.Rounds
import TreebankGrammar.Proofs.Workspace.Merging
import TreebankGrammar.Proofs.CommandLine.Effects
