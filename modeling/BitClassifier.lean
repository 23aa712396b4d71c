import BitClassifier.Main
import BitClassifier.Proofs.Compile
import BitClassifier.Proofs.Prune.Passes
import BitClassifier.Trie.Display
import BitClassifier.Proofs.Prune.Canonical
import BitClassifier.Proofs.Table.Spelling
import BitClassifier.Proofs.Table.Document
import BitClassifier.Proofs.Source.Lexeme
import BitClassifier.Proofs.Emit.Lexemes
import BitClassifier.Proofs.Source.Macro
import BitClassifier.Proofs.Source.Grammar
import BitClassifier.Proofs.Source.Meaning
import BitClassifier.Proofs.Emit.Shorthands
import BitClassifier.Proofs.Emit.Meaning
import BitClassifier.Proofs.Peg.Basic
import BitClassifier.Proofs.Peg.DataFile
import BitClassifier.Proofs.Prune.Irrelevant
import BitClassifier.Proofs.Peg.Within
import BitClassifier.Proofs.Peg.File
import BitClassifier.Proofs.Directory
import BitClassifier.Proofs.Table.Append
import BitClassifier.Proofs.Cli.Run
import BitClassifier.Proofs.Cli.Classifiers
import BitClassifier.Proofs.Cli.Kept
import BitClassifier.Proofs.Cli.Execute
import BitClassifier.Proofs.Prune.Derivation
import BitClassifier.Proofs.Prune.WorstCase
import BitClassifier.Proofs.Prune.Comparisons
import BitClassifier.Proofs.Prune.NormalForm
import BitClassifier.Proofs.Prune.SingleTest
import BitClassifier.Proofs.Prune.Regions
import BitClassifier.Proofs.Trie.Size
import BitClassifier.Proofs.Trie.Room
import BitClassifier.Proofs.Domain
import BitClassifier.Proofs.Predicate.Builder
import BitClassifier.Proofs.Table.Refusal
import BitClassifier.Table.Store
import BitClassifier.Proofs.Table.LineEnds
import BitClassifier.Proofs.Table.Categories
import BitClassifier.Proofs.Table.Store
import BitClassifier.Proofs.Table.Outcome
import BitClassifier.Proofs.Emit.Leaf
import BitClassifier.Proofs.Predicate.Text
import BitClassifier.Proofs.Emit.Counting
import BitClassifier.Proofs.Prune.Calls
import BitClassifier.Proofs.Prune.SingleBlock
import BitClassifier.Proofs.Emit.TestVerdict
