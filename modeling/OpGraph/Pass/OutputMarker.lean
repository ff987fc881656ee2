import OpGraph.Pass.Basic

/-!
# Output markers

A marker stands for a tensor that is requested as an output of the model. If the
producer of that tensor uses no other output, the marker is taken out: its consumers
are fed by the producer, which takes over the name of the marker. Otherwise the
marker becomes an identity.
-/

namespace OpGraph

/-- Connection that feeds a marker. -/
def markerFeed (id : NodeId) (marker : Node) (graph : Graph) : Except GraphError ConnectionId :=
  match graph.inputConnection? id 0 with
  | some feed => .ok feed
  | none => .error (.validationFailed (.markerWithoutProducer marker.name))

/-- Number of output ports that something consumes. -/
def Node.usedOutputs (node : Node) : Nat := node.outputs.countP fun port => !port.isDisconnected

/-- Take a marker out: let its consumers and its name pass to the producer. -/
def bypassMarker (id : NodeId) (marker : Node) (feed : ConnectionId) (source : PortRef) :
    Edit Unit := do
  (marker.outputs.flatMap (·.connections)).forM fun connection =>
    Edit.rewireSource connection source
  discard (Edit.disconnect feed)
  Edit.renameNode id s!"{marker.name}/TBD"
  Edit.renameNode source.node marker.name
  discard (Edit.removeNode id .strict)

/-- Resolve one marker. -/
def resolveMarker (found : Match) : Edit Unit := do
  let id ← Edit.ofExcept (found.require "fake")
  let marker ← Edit.check (·.requireNode id)
  let feed ← Edit.check (markerFeed id marker)
  let connection ← Edit.check (·.requireConnection feed)
  let producer ← Edit.check (·.requireNode connection.source.node)
  if producer.usedOutputs = 1 then bypassMarker id marker feed connection.source
  else Edit.setOpType id "Identity"

/-- Resolve all markers. -/
def Pass.outputMarkers : Pass where
  name := "FakeOutputResolver"
  enabled := true
  pattern := .single "fake" "FakeOutput"
  after := []
  before := []
  apply := resolveMarker

end OpGraph
