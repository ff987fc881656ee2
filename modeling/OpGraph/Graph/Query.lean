import OpGraph.Graph.Basic

/-!
# Questions about a graph

Searches by operator type, neighbours of a port, and the output ports that
nothing consumes. All lists follow the order of the nodes in the graph.
-/

namespace OpGraph.Graph

/-- Nodes of one operator type. -/
def nodesOfType (graph : Graph) (opType : String) : List Node :=
  graph.nodes.values.filter fun node => node.opType = opType

/-- Nodes whose operator type is one of several. -/
def nodesOfTypes (graph : Graph) (opTypes : List String) : List Node :=
  graph.nodes.values.filter fun node => opTypes.contains node.opType

/-- Node that feeds an input port. -/
def producer? (graph : Graph) (node : NodeId) (index : Nat) : Option Node :=
  (graph.inputSource? node index).bind fun source => graph.node? source.node

/-- Nodes that consume an output port, once for each connection. -/
def consumers (graph : Graph) (node : NodeId) (index : Nat) : List Node :=
  (graph.outputDestinations node index).filterMap fun destination => graph.node? destination.node

/-- Some connection runs from the first node to the second. -/
def areConnected (graph : Graph) (first second : NodeId) : Bool :=
  graph.connections.values.any fun connection =>
    connection.source.node = first && connection.destination.node = second

/-- Output ports without a consumer. -/
def disconnectedOutputPorts (graph : Graph) : List PortRef :=
  graph.nodes.toList.flatMap fun (id, node) => node.disconnectedOutputs.map (.output id)

/-- Number of output ports without a consumer at nodes of one operator type. -/
def countDisconnectedOutputs (graph : Graph) (opType : String) : Nat :=
  ((graph.nodesOfType opType).flatMap (·.disconnectedOutputs)).length

end OpGraph.Graph
