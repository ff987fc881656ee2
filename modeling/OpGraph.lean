import OpGraph.Attribute
import OpGraph.Binary64
import OpGraph.Error
import OpGraph.Graph.Basic
import OpGraph.Graph.Edit
import OpGraph.Graph.Order
import OpGraph.Graph.Port
import OpGraph.Graph.Query
import OpGraph.Infer.Basic
import OpGraph.Infer.Gather
import OpGraph.Infer.Pooling
import OpGraph.Infer.PriorBox
import OpGraph.Infer.Registry
import OpGraph.Infer.Run
import OpGraph.Int64
import OpGraph.OrderedMap
import OpGraph.Pass.Basic
import OpGraph.Pass.GatherAxis
import OpGraph.Pass.OutputMarker
import OpGraph.Pass.PoolingMethod
import OpGraph.Pass.Run
import OpGraph.Pass.Schedule
import OpGraph.Pass.Standard
import OpGraph.Pass.Terminal
import OpGraph.Pattern.Basic
import OpGraph.Pattern.Match
import OpGraph.Pipeline
import OpGraph.Proofs.AcyclicRuns
import OpGraph.Proofs.AttributeHistory
import OpGraph.Proofs.CanonicalOutput
import OpGraph.Proofs.Cycle
import OpGraph.Proofs.Edit.Changes
import OpGraph.Proofs.Edit.Composite
import OpGraph.Proofs.Edit.Exact
import OpGraph.Proofs.Edit.Failure
import OpGraph.Proofs.Edit.Operation
import OpGraph.Proofs.Edit.Outcome
import OpGraph.Proofs.Edit.PortOrder
import OpGraph.Proofs.Edit.Terminal
import OpGraph.Proofs.Edit.Upheld
import OpGraph.Proofs.ExhaustiveRuns
import OpGraph.Proofs.FailedOperations
import OpGraph.Proofs.FittingValues
import OpGraph.Proofs.Flow
import OpGraph.Proofs.GatherAxes
import OpGraph.Proofs.GeneratedNames
import OpGraph.Proofs.Graph.Bare
import OpGraph.Proofs.Graph.Change
import OpGraph.Proofs.Graph.Coherent
import OpGraph.Proofs.Graph.Counting
import OpGraph.Proofs.Graph.Cut
import OpGraph.Proofs.Graph.CyclicNodes
import OpGraph.Proofs.Graph.Drawn
import OpGraph.Proofs.Graph.Extended
import OpGraph.Proofs.Graph.Feed
import OpGraph.Proofs.Graph.FreshName
import OpGraph.Proofs.Graph.Hide
import OpGraph.Proofs.Graph.Linked
import OpGraph.Proofs.Graph.Lookup
import OpGraph.Proofs.Graph.Order
import OpGraph.Proofs.Graph.PortOrder
import OpGraph.Proofs.Graph.QueueOrder
import OpGraph.Proofs.Graph.Spared
import OpGraph.Proofs.HaltedInference
import OpGraph.Proofs.HaltedMarkers
import OpGraph.Proofs.Idempotence
import OpGraph.Proofs.Infer.AnyOrder
import OpGraph.Proofs.Infer.Constants
import OpGraph.Proofs.Infer.Failure
import OpGraph.Proofs.Infer.FittingValues
import OpGraph.Proofs.Infer.Frame
import OpGraph.Proofs.Infer.Function
import OpGraph.Proofs.Infer.PooledExtents
import OpGraph.Proofs.Infer.PriorGrid
import OpGraph.Proofs.Infer.Refinement
import OpGraph.Proofs.Infer.Run
import OpGraph.Proofs.Infer.Settled
import OpGraph.Proofs.Infer.Visited
import OpGraph.Proofs.InferAfterPasses
import OpGraph.Proofs.InputNames
import OpGraph.Proofs.MarkerFailures
import OpGraph.Proofs.MarkerNames
import OpGraph.Proofs.NodeRemoval
import OpGraph.Proofs.Pass.Cleared
import OpGraph.Proofs.Pass.CyclicPasses
import OpGraph.Proofs.Pass.Failure
import OpGraph.Proofs.Pass.GatherMoved
import OpGraph.Proofs.Pass.GatherSettled
import OpGraph.Proofs.Pass.Hidden
import OpGraph.Proofs.Pass.MarkerBypass
import OpGraph.Proofs.Pass.MarkerSettled
import OpGraph.Proofs.Pass.OutputMarker
import OpGraph.Proofs.Pass.PoolingNode
import OpGraph.Proofs.Pass.PoolingSettled
import OpGraph.Proofs.Pass.Rescan
import OpGraph.Proofs.Pass.Rewritten
import OpGraph.Proofs.Pass.Run
import OpGraph.Proofs.Pass.Schedule
import OpGraph.Proofs.Pass.Turns
import OpGraph.Proofs.PassOrder
import OpGraph.Proofs.Pattern.Search
import OpGraph.Proofs.Pattern.Single
import OpGraph.Proofs.PipelineFailures
import OpGraph.Proofs.PoolingOutputs
import OpGraph.Proofs.PortOrder
import OpGraph.Proofs.Reachable
import OpGraph.Proofs.Rewiring
import OpGraph.Proofs.SetOnce
import OpGraph.Proofs.Source.Exact
import OpGraph.Proofs.Source.Extract
import OpGraph.Proofs.Source.Import
import OpGraph.Proofs.Source.Imported
import OpGraph.Proofs.Source.Names
import OpGraph.Proofs.Source.PoolingRecords
import OpGraph.Proofs.Source.WrittenScalars
import OpGraph.Proofs.Stages
import OpGraph.Proofs.TerminatedPorts
import OpGraph.Proofs.Text.WrittenList
import OpGraph.Proofs.Validator
import OpGraph.Proofs.View.Canonize
import OpGraph.Proofs.View.Growth
import OpGraph.Proofs.View.PassRun
import OpGraph.Proofs.View.Put
import OpGraph.Proofs.View.Reading
import OpGraph.Proofs.View.Shows
import OpGraph.Proofs.View.Stem
import OpGraph.Repeat
import OpGraph.Source.Extract
import OpGraph.Source.Model
import OpGraph.Source.Reader
import OpGraph.Source.Registry
import OpGraph.Tensor.Info
import OpGraph.Tensor.Shape
import OpGraph.Text.Blank
import OpGraph.Text.Bracketed
import OpGraph.Text.Numeral
import OpGraph.Validation
