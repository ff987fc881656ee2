import OpGraph.Graph.Edit
import OpGraph.Graph.Order
import OpGraph.Infer.Basic

/-!
# Inference over a graph

Inference visits the nodes in topological order and writes what it finds out to
their output ports. A node whose output ports all carry information is skipped, so
information that is there is never computed again.
-/

namespace OpGraph

/-- Count of visited nodes. -/
structure InferStats where
  /-- Nodes whose function ran. -/
  inferred : Nat
  /-- Nodes that needed no inference. -/
  skipped : Nat
  deriving DecidableEq

namespace Infer

/-- Every output port carries information, and there is one at least. -/
def isAnnotated (node : Node) : Bool :=
  !node.outputs.isEmpty && node.outputs.all fun port => port.info.isSome

/-- What is known at an input port. A disconnected one has nothing to know; the
source of a connected one must be resolved already. -/
def portInfo (graph : Graph) (id : NodeId) (port : InputPort) : Except GraphError TensorInfo :=
  if port.isDisconnected then .ok .unknown
  else match (graph.inputInfo? id port.index).filter (·.isResolved) with
    | some info => .ok info
    | none =>
      .error (.shapeInferenceFailed (.unresolvedSource (graph.portLabel (.input id port.index))))

/-- What inference finds out about the outputs of a node in its graph. -/
def nodeOutputs (registry : InferRegistry) (graph : Graph) (id : NodeId) (node : Node) :
    Except GraphError (List TensorInfo) := do
  let some infer := registry.get? node.opType
    | throw (.shapeInferenceFailed (.noFunction node.opType node.name))
  let inputs ← node.inputs.mapM (portInfo graph id)
  let outputs ← infer node inputs
  if outputs.length ≠ node.outputs.length then
    throw (.internal (.annotationCount node.name outputs.length node.outputs.length))
  return outputs

/-- Infer one node; the answer tells whether there was anything to do. -/
def inferNode (registry : InferRegistry) (id : NodeId) : Edit Bool := do
  let node ← Edit.check (·.requireNode id)
  if isAnnotated node then return false
  let outputs ← Edit.check (nodeOutputs registry · id node)
  outputs.zipIdx.forM fun (info, index) => Edit.annotate (.output id index) info
  return true

/-- Infer nodes one after another, counting on. -/
def inferAll (registry : InferRegistry) : List NodeId → InferStats → Edit InferStats
  | [], stats => return stats
  | id :: rest, stats => do
    if ← inferNode registry id then
      inferAll registry rest { stats with inferred := stats.inferred + 1 }
    else inferAll registry rest { stats with skipped := stats.skipped + 1 }

/-- Infer the whole graph. -/
def inferGraph (registry : InferRegistry) : Edit InferStats := do
  let order ← Edit.check (·.topologicalOrder)
  inferAll registry order ⟨0, 0⟩

end Infer

end OpGraph
