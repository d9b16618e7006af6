import OperatorGrammar.CommandLine.Report
import OperatorGrammar.Node.Listing
import OperatorGrammar.Node.Visit
import OperatorGrammar.Run
import OperatorGrammar.Main
import OperatorGrammar.Proofs.Turn.Partition
import OperatorGrammar.Proofs.Turn.Restart
import OperatorGrammar.Proofs.Caret
import OperatorGrammar.Proofs.Depth
import OperatorGrammar.Proofs.Earliest
import OperatorGrammar.Proofs.Outcome
import OperatorGrammar.Proofs.Ranking
import OperatorGrammar.Proofs.ReadBack
import OperatorGrammar.Proofs.Relayout
import OperatorGrammar.Proofs.Resumption
import OperatorGrammar.Proofs.RoundTrip
import OperatorGrammar.Proofs.Leniency
import OperatorGrammar.Proofs.LineEnds
import OperatorGrammar.Proofs.Turn.Incremental
import OperatorGrammar.Proofs.Tables
import OperatorGrammar.Proofs.Rendering
import OperatorGrammar.Proofs.Grammar.Maximal
import OperatorGrammar.Proofs.Grammar.Climbing
import OperatorGrammar.Proofs.Outline
import OperatorGrammar.Proofs.CommandLine
import OperatorGrammar.Proofs.Scanning.Demand
import OperatorGrammar.Proofs.Scanning.LastLines
import OperatorGrammar.Proofs.Literal.Pattern
import OperatorGrammar.Proofs.Literal.Run
import OperatorGrammar.Proofs.Visiting
import OperatorGrammar.Proofs.Printing
import OperatorGrammar.Proofs.Entries
import OperatorGrammar.Proofs.Balance
import OperatorGrammar.Proofs.Refusal
import OperatorGrammar.Proofs.Acceptance
