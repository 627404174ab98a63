import CapabilityFlow.Analysis
import CapabilityFlow.Batch
import CapabilityFlow.Capabilities
import CapabilityFlow.Check
import CapabilityFlow.Codec.Batch
import CapabilityFlow.Codec.Diagnostic
import CapabilityFlow.Codec.MethodBody
import CapabilityFlow.Codec.SymbolTable
import CapabilityFlow.Diagnostic
import CapabilityFlow.Enforcement
import CapabilityFlow.Evaluation
import CapabilityFlow.FlowGraph
import CapabilityFlow.FlowGraph.Traversal
import CapabilityFlow.Host
import CapabilityFlow.Json
import CapabilityFlow.Json.Decode
import CapabilityFlow.Json.Reader
import CapabilityFlow.Load
import CapabilityFlow.OrderedMap
import CapabilityFlow.Proofs.AbortedCalls
import CapabilityFlow.Proofs.ArgumentFlow
import CapabilityFlow.Proofs.ArgumentPositions
import CapabilityFlow.Proofs.BackEdges
import CapabilityFlow.Proofs.BatchIndependence
import CapabilityFlow.Proofs.BodyRoundTrip
import CapabilityFlow.Proofs.BuiltGraphs
import CapabilityFlow.Proofs.CapabilityText
import CapabilityFlow.Proofs.CarriedAnnotations
import CapabilityFlow.Proofs.Demands
import CapabilityFlow.Proofs.EdgeOrder
import CapabilityFlow.Proofs.EnforcedArguments
import CapabilityFlow.Proofs.ExactPass
import CapabilityFlow.Proofs.Facts
import CapabilityFlow.Proofs.FailFast
import CapabilityFlow.Proofs.ForwardPaths
import CapabilityFlow.Proofs.Jobs
import CapabilityFlow.Proofs.JoinLaws
import CapabilityFlow.Proofs.JustifiedDiagnostics
import CapabilityFlow.Proofs.Lockstep
import CapabilityFlow.Proofs.MarkHistory
import CapabilityFlow.Proofs.MarkSources
import CapabilityFlow.Proofs.MissingKinds
import CapabilityFlow.Proofs.NestedArguments
import CapabilityFlow.Proofs.ParsedTables
import CapabilityFlow.Proofs.PathDecomposition
import CapabilityFlow.Proofs.QuotedTypes
import CapabilityFlow.Proofs.Reachability
import CapabilityFlow.Proofs.RecursiveTraversal
import CapabilityFlow.Proofs.Relaxation
import CapabilityFlow.Proofs.RepairedMismatches
import CapabilityFlow.Proofs.SeparateJudgement
import CapabilityFlow.Proofs.ShadowedBlocks
import CapabilityFlow.Proofs.SiteReports
import CapabilityFlow.Proofs.SlotHistory
import CapabilityFlow.Proofs.StraightLine
import CapabilityFlow.Proofs.Suppression
import CapabilityFlow.Proofs.TableRoundTrip
import CapabilityFlow.Proofs.TraversalOrder
import CapabilityFlow.Proofs.UnchangedOperands
import CapabilityFlow.Proofs.Unevaluated
import CapabilityFlow.Proofs.ValueSetHistory
import CapabilityFlow.Proofs.Violations
import CapabilityFlow.Proofs.VisitedBlocks
import CapabilityFlow.Proofs.WellFormed
import CapabilityFlow.Proofs.Workers
import CapabilityFlow.Proofs.WrittenCodes
import CapabilityFlow.SlotState
import CapabilityFlow.Symbol
import CapabilityFlow.SymbolTable
import CapabilityFlow.Text
import CapabilityFlow.ValueSet
