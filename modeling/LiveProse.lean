import LiveProse.Command.Directory
import LiveProse.Deduction.RuleGraph
import LiveProse.Main
import LiveProse.Proofs.Relex.Convergence
import LiveProse.Proofs.Chart.Changes
import LiveProse.Proofs.Chart.Coherence
import LiveProse.Proofs.Chart.Enumeration
import LiveProse.Proofs.Chart.Introductions
import LiveProse.Proofs.Chart.Ledger
import LiveProse.Proofs.Chart.Order
import LiveProse.Proofs.Chart.Agreement
import LiveProse.Proofs.Chart.Restatement
import LiveProse.Proofs.Deduction.Exactness
import LiveProse.Proofs.Lexical.Tokenizer
import LiveProse.Proofs.Session.Buffers
import LiveProse.Proofs.Chart.Chain
import LiveProse.Proofs.Chart.Renewal
import LiveProse.Proofs.Chart.Relinking
import LiveProse.Proofs.Session.Edits
import LiveProse.Proofs.Session.Histories
import LiveProse.Proofs.Chart.Renaming
import LiveProse.Proofs.Chart.Significance
import LiveProse.Proofs.Grammar.Numbers
import LiveProse.Proofs.Highlight.Patches
import LiveProse.Proofs.Session.Sites
import LiveProse.Proofs.Session.Spelling
import LiveProse.Proofs.Lexical.Bracketings
import LiveProse.Proofs.Lexical.States
import LiveProse.Proofs.Sequence.Balance
import LiveProse.Proofs.Sequence.Sums
import LiveProse.Proofs.Session.Independence
import LiveProse.Proofs.Session.Circularity
import LiveProse.Proofs.Session.Sentences
import LiveProse.Proofs.Session.Indices
import LiveProse.Proofs.Session.Reliance
import LiveProse.Proofs.Session.Texts
import LiveProse.Proofs.Grammar.DepthFirst
import LiveProse.Proofs.Grammar.UnitCycles
import LiveProse.Proofs.Lexical.Restarts
import LiveProse.Proofs.Grammar.Histories
import LiveProse.Proofs.Chart.Isolation
import LiveProse.Proofs.Session.Isolation
import LiveProse.Proofs.Sequence.Searches
import LiveProse.Proofs.Sequence.Lifetimes
import LiveProse.Proofs.Deduction.Statistics
import LiveProse.Proofs.Lexical.Depths
import LiveProse.Proofs.Grammar.ReportedNames
import LiveProse.Proofs.Session.Atomicity
import LiveProse.Proofs.Highlight.Partition
