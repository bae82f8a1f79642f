import ConstFlow.Analysis.Analyze
import ConstFlow.Analysis.Solver
import ConstFlow.Analysis.Table
import ConstFlow.Analysis.Transfer
import ConstFlow.Analysis.Worklist
import ConstFlow.Assoc
import ConstFlow.Command.Options
import ConstFlow.Command.Run
import ConstFlow.Config
import ConstFlow.Decimal.Binary64
import ConstFlow.Fact
import ConstFlow.Files.Path
import ConstFlow.Graph.CallGraph
import ConstFlow.Graph.ControlFlow
import ConstFlow.Graph.Dot
import ConstFlow.Graph.Error
import ConstFlow.Graph.Node
import ConstFlow.Graph.Supergraph
import ConstFlow.Graph.Wiring
import ConstFlow.Host
import ConstFlow.Int32
import ConstFlow.Json.Basic
import ConstFlow.Json.Printer
import ConstFlow.Json.Reader
import ConstFlow.Log
import ConstFlow.Main
import ConstFlow.Operator
import ConstFlow.Program.Basic
import ConstFlow.Program.Text
import ConstFlow.Proofs.Accepted
import ConstFlow.Proofs.ArityReports
import ConstFlow.Proofs.Assembly
import ConstFlow.Proofs.BreadthFirst
import ConstFlow.Proofs.CallReach
import ConstFlow.Proofs.Comments
import ConstFlow.Proofs.ConfigMappings
import ConstFlow.Proofs.ConstantRange
import ConstFlow.Proofs.DeadMethods
import ConstFlow.Proofs.Drawing
import ConstFlow.Proofs.EdgeStructure
import ConstFlow.Proofs.Exactness
import ConstFlow.Proofs.ExitCodes
import ConstFlow.Proofs.FactJoin
import ConstFlow.Proofs.FactOrder
import ConstFlow.Proofs.ForeignResults
import ConstFlow.Proofs.GraphShape
import ConstFlow.Proofs.LeastSolution
import ConstFlow.Proofs.LiteralSpilling
import ConstFlow.Proofs.LoopInvariant
import ConstFlow.Proofs.LoweredMethods
import ConstFlow.Proofs.Machine
import ConstFlow.Proofs.Matching
import ConstFlow.Proofs.MatchingTwoTexts
import ConstFlow.Proofs.MethodRuns
import ConstFlow.Proofs.Moments
import ConstFlow.Proofs.MoreEntries
import ConstFlow.Proofs.NextStatement
import ConstFlow.Proofs.OneRun
import ConstFlow.Proofs.Overrides
import ConstFlow.Proofs.PlacedTrees
import ConstFlow.Proofs.Positions
import ConstFlow.Proofs.Reachability
import ConstFlow.Proofs.Reading
import ConstFlow.Proofs.Recomputing
import ConstFlow.Proofs.Refusals
import ConstFlow.Proofs.Reports
import ConstFlow.Proofs.Resumption
import ConstFlow.Proofs.RoundTrip
import ConstFlow.Proofs.Rounds
import ConstFlow.Proofs.Scoping
import ConstFlow.Proofs.Solutions
import ConstFlow.Proofs.SolverRuns
import ConstFlow.Proofs.Soundness
import ConstFlow.Proofs.SourceTrees
import ConstFlow.Proofs.StraightLine
import ConstFlow.Proofs.TransferOrder
import ConstFlow.Proofs.TwinGraphs
import ConstFlow.Proofs.TwosComplement
import ConstFlow.Proofs.Uncommented
import ConstFlow.Proofs.VisitBound
import ConstFlow.Proofs.Words
import ConstFlow.Proofs.Worklists
import ConstFlow.Report
import ConstFlow.Source.Grammar
import ConstFlow.Source.Lowering
import ConstFlow.Source.Matcher
import ConstFlow.Source.Parse
import ConstFlow.Source.Rejection
import ConstFlow.Source.Tree
import ConstFlow.Text.Basic
import ConstFlow.Text.Blank
import ConstFlow.Text.Number
import ConstFlow.Text.Position
import ConstFlow.Text.Printable
import ConstFlow.Text.Quoted
import ConstFlow.Text.Utf8
import ConstFlow.Value
