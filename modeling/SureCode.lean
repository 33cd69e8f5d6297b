import SureCode.Attribution.Basic
import SureCode.Attribution.OffsetMap
import SureCode.Calibration.Basic
import SureCode.Calibration.Coverage
import SureCode.Calibration.Tail
import SureCode.CommandLine.Command
import SureCode.CommandLine.Report
import SureCode.CommandLine.Words
import SureCode.Completion
import SureCode.Containment
import SureCode.Decimal.Shortest
import SureCode.Decimal.Style
import SureCode.Decimal.Word
import SureCode.Diagnostic
import SureCode.Evaluation.Basic
import SureCode.Evaluation.Settings
import SureCode.Grammar.Events
import SureCode.Grammar.Mark
import SureCode.Grammar.Program
import SureCode.Grammar.Rules
import SureCode.Json.Basic
import SureCode.Json.Printer
import SureCode.Json.Reader
import SureCode.Kind
import SureCode.Main
import SureCode.Node.Basic
import SureCode.Node.Layout
import SureCode.Node.Record
import SureCode.Parse
import SureCode.Proofs.Attribution.Basic
import SureCode.Proofs.Attribution.Charges
import SureCode.Proofs.Attribution.Conservation
import SureCode.Proofs.Attribution.OffsetMap
import SureCode.Proofs.Calibration.Aggregation
import SureCode.Proofs.Calibration.Binomial
import SureCode.Proofs.Calibration.Coverage
import SureCode.Proofs.Calibration.Points
import SureCode.Proofs.Calibration.Tail
import SureCode.Proofs.Completion
import SureCode.Proofs.Conservation
import SureCode.Proofs.Containment.Embedding
import SureCode.Proofs.Containment.Traces
import SureCode.Proofs.Costs
import SureCode.Proofs.Doubles.Addition
import SureCode.Proofs.Doubles.Packing
import SureCode.Proofs.Doubles.Ranks
import SureCode.Proofs.Doubles.Rounding
import SureCode.Proofs.Evaluation.Basic
import SureCode.Proofs.Evaluation.Batch
import SureCode.Proofs.Evaluation.FirstLine
import SureCode.Proofs.Evaluation.Readback
import SureCode.Proofs.Exact
import SureCode.Proofs.Except
import SureCode.Proofs.Faultless
import SureCode.Proofs.Grammar.Constructs
import SureCode.Proofs.Grammar.Erasure
import SureCode.Proofs.Grammar.Faultless
import SureCode.Proofs.Grammar.Groups
import SureCode.Proofs.Grammar.Lengths
import SureCode.Proofs.Grammar.Mark
import SureCode.Proofs.Grammar.Outline
import SureCode.Proofs.Grammar.Progress
import SureCode.Proofs.Grammar.Reading
import SureCode.Proofs.Grammar.Recording
import SureCode.Proofs.Grammar.Renaming
import SureCode.Proofs.Grammar.Replay
import SureCode.Proofs.Grammar.Rules
import SureCode.Proofs.Grammar.Run
import SureCode.Proofs.Grammar.Shape
import SureCode.Proofs.Hybrid
import SureCode.Proofs.Json.RoundTrip
import SureCode.Proofs.Json.Words
import SureCode.Proofs.LayoutIndependence
import SureCode.Proofs.Node.Layout
import SureCode.Proofs.Node.Records
import SureCode.Proofs.Node.Signature
import SureCode.Proofs.Node.Size
import SureCode.Proofs.Node.Validity
import SureCode.Proofs.NormalForm
import SureCode.Proofs.NumericOrder
import SureCode.Proofs.Parse
import SureCode.Proofs.Pruning.Admissible
import SureCode.Proofs.Pruning.Annotation
import SureCode.Proofs.Pruning.Answers
import SureCode.Proofs.Pruning.Budgets
import SureCode.Proofs.Pruning.Commitments
import SureCode.Proofs.Pruning.Conflicts
import SureCode.Proofs.Pruning.CostTable
import SureCode.Proofs.Pruning.Decisions
import SureCode.Proofs.Pruning.Engines
import SureCode.Proofs.Pruning.Exact
import SureCode.Proofs.Pruning.Expansion
import SureCode.Proofs.Pruning.Families
import SureCode.Proofs.Pruning.Folding
import SureCode.Proofs.Pruning.Greedy
import SureCode.Proofs.Pruning.Guardians
import SureCode.Proofs.Pruning.Knapsack
import SureCode.Proofs.Pruning.LeastCost
import SureCode.Proofs.Pruning.Limits
import SureCode.Proofs.Pruning.Nests
import SureCode.Proofs.Pruning.Outline
import SureCode.Proofs.Pruning.Picks
import SureCode.Proofs.Pruning.Queues
import SureCode.Proofs.Pruning.Reconstruction
import SureCode.Proofs.Pruning.RemovalOrder
import SureCode.Proofs.Pruning.Search
import SureCode.Proofs.Pruning.Solution
import SureCode.Proofs.Pruning.Steps
import SureCode.Proofs.Pruning.Thresholds
import SureCode.Proofs.Pruning.Visits
import SureCode.Proofs.Reals
import SureCode.Proofs.Scalar
import SureCode.Proofs.Shares
import SureCode.Proofs.Syntax.Assignment
import SureCode.Proofs.Syntax.Blocks
import SureCode.Proofs.Syntax.Expression
import SureCode.Proofs.Syntax.Operators
import SureCode.Proofs.Syntax.Phrase
import SureCode.Proofs.Syntax.Precedence
import SureCode.Proofs.Syntax.Program
import SureCode.Proofs.Syntax.Statement
import SureCode.Proofs.Token.Alone
import SureCode.Proofs.Token.BlankLines
import SureCode.Proofs.Token.Coverage
import SureCode.Proofs.Token.Indentation
import SureCode.Proofs.Token.LineBreaks
import SureCode.Proofs.Token.Lines
import SureCode.Proofs.Token.Literals
import SureCode.Proofs.Token.Lookahead
import SureCode.Proofs.Token.Spelling
import SureCode.Proofs.Token.Trivia
import SureCode.Proofs.Token.Words
import SureCode.Proofs.Tree.Ancestry
import SureCode.Proofs.Tree.Index
import SureCode.Proofs.Tree.SideTable
import SureCode.Proofs.Tree.Walk
import SureCode.Pruning.Basic
import SureCode.Pruning.CostTable
import SureCode.Pruning.Exact
import SureCode.Pruning.Folding
import SureCode.Pruning.Greedy
import SureCode.Pruning.Knapsack
import SureCode.Pruning.LeastCost
import SureCode.Pruning.Outline
import SureCode.Pruning.Reconstruction
import SureCode.Pruning.Search
import SureCode.Pruning.Thresholds
import SureCode.Scalar
import SureCode.Span
import SureCode.Text.Blank
import SureCode.Text.CodeRanges
import SureCode.Text.Combining
import SureCode.Text.Letter
import SureCode.Text.Numeral
import SureCode.Text.Printable
import SureCode.Text.Quoted
import SureCode.Token.Basic
import SureCode.Token.Cursor
import SureCode.Token.Lexeme
import SureCode.Token.Lexer
import SureCode.Toml.Lexical
import SureCode.Toml.Reader
import SureCode.Toml.Table
import SureCode.Tree.Basic
import SureCode.Tree.Index
import SureCode.Tree.SideTable
import SureCode.Tree.Walk
