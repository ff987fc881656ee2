import OpGraph.Error
import OpGraph.Tensor.Info

/-!
# Operator graphs

A graph owns nodes with numbered ports and connections between them. Each
connection is recorded three times: in the table of connections, in the list of
the output port at which it starts, and in the slot of the input port at which it
ends. Names of nodes are recorded in an index besides. The look-ups of this module
read one record each; `Graph.Edit` keeps the records in step.

Nodes and connections are numbered without bound. This agrees with counters of 32 bits
as long as none has handed out its last number.
-/

namespace OpGraph

/-- A port that receives at most one tensor. -/
structure InputPort where
  /-- Position among the input ports of the node. -/
  index : Nat
  /-- Connection that feeds the port. -/
  connection : Option ConnectionId
  deriving DecidableEq

/-- Nothing feeds the port. -/
def InputPort.isDisconnected (port : InputPort) : Bool := port.connection.isNone

/-- A port that delivers one tensor to any number of consumers. -/
structure OutputPort where
  /-- Position among the output ports of the node. -/
  index : Nat
  /-- Connections that start here, in the order in which they were attached. -/
  connections : List ConnectionId
  /-- What inference found out about the tensor. -/
  info : Option TensorInfo
  deriving DecidableEq

/-- Nothing consumes the port. -/
def OutputPort.isDisconnected (port : OutputPort) : Bool := port.connections.isEmpty

/-- An operator with its ports. -/
structure Node where
  /-- Name, unique in the graph. -/
  name : String
  /-- Type of the operator. -/
  opType : String
  /-- Parameters of the operator. -/
  attributes : Attributes
  /-- Input ports by position. -/
  inputs : List InputPort
  /-- Output ports by position. -/
  outputs : List OutputPort

namespace Node

/-- Append a connection that is not among those at hand. -/
def appendNew (ids : List ConnectionId) (id : ConnectionId) : List ConnectionId :=
  if ids.contains id then ids else ids ++ [id]

/-- Connections that touch the node, incoming ones first and a self-loop once. -/
def connectionIds (node : Node) : List ConnectionId :=
  (node.outputs.flatMap (·.connections)).foldl appendNew (node.inputs.filterMap (·.connection))

/-- Positions of the output ports without a consumer. -/
def disconnectedOutputs (node : Node) : List Nat :=
  (node.outputs.filter (·.isDisconnected)).map (·.index)

/-- Number of ports on one side. -/
def portCount (node : Node) : Direction → Nat
  | .input => node.inputs.length
  | .output => node.outputs.length

end Node

/-- What is asked of a new node. -/
structure NodeDesc where
  /-- Type of the operator. -/
  opType : String
  /-- Requested name; without one the graph makes a name from type and number. -/
  name : Option String := none
  /-- Parameters of the operator. -/
  attributes : Attributes := .empty
  /-- Number of input ports. -/
  inputs : Nat := 0
  /-- Number of output ports. -/
  outputs : Nat := 0

/-- Operators and the tensors that flow between them. -/
structure Graph where
  /-- Nodes in creation order. -/
  nodes : OrderedMap NodeId Node
  /-- Connections in creation order. -/
  connections : OrderedMap ConnectionId Connection
  /-- Node of each name that is in use. -/
  names : OrderedMap String NodeId
  /-- Number of the next node. -/
  nextNode : Nat
  /-- Number of the next connection. -/
  nextConnection : Nat

namespace Graph

/-- The graph without nodes. -/
def empty : Graph := ⟨∅, ∅, ∅, 0, 0⟩

instance : Inhabited Graph := ⟨empty⟩

/-- Node of that number. -/
def node? (graph : Graph) (id : NodeId) : Option Node := graph.nodes.get? id

/-- Connection of that number. -/
def connection? (graph : Graph) (id : ConnectionId) : Option Connection := graph.connections.get? id

/-- Number of the node that carries a name. -/
def idOf? (graph : Graph) (name : String) : Option NodeId := graph.names.get? name

/-- Node of that number, which must exist. -/
def requireNode (graph : Graph) (id : NodeId) : Except GraphError Node :=
  match graph.node? id with
  | some node => .ok node
  | none => .error (.nodeNotFound (toString id))

/-- Connection of that number, which must exist. -/
def requireConnection (graph : Graph) (id : ConnectionId) : Except GraphError Connection :=
  match graph.connection? id with
  | some connection => .ok connection
  | none => .error (.connectionNotFound id)

/-- The port must lie on an existing node and be one of its ports. -/
def checkPort (graph : Graph) (port : PortRef) : Except GraphError Unit := do
  let node ← graph.requireNode port.node
  let count := node.portCount port.direction
  if port.index < count then return ()
  else throw (.portNotFound port node.name count)

/-- Port by the name of its node, or by number where the node does not exist. -/
def portLabel (graph : Graph) (port : PortRef) : String :=
  match graph.node? port.node with
  | some node => s!"{node.name}:{port.direction}{port.index}"
  | none => toString port

/-- Input port at a position of a node. -/
def inputPort? (graph : Graph) (node : NodeId) (index : Nat) : Option InputPort :=
  (graph.node? node).bind fun node => node.inputs[index]?

/-- Output port at a position of a node. -/
def outputPort? (graph : Graph) (node : NodeId) (index : Nat) : Option OutputPort :=
  (graph.node? node).bind fun node => node.outputs[index]?

/-- Connection that feeds an input port. -/
def inputConnection? (graph : Graph) (node : NodeId) (index : Nat) : Option ConnectionId :=
  (graph.inputPort? node index).bind (·.connection)

/-- Output port that feeds an input port. -/
def inputSource? (graph : Graph) (node : NodeId) (index : Nat) : Option PortRef :=
  ((graph.inputConnection? node index).bind graph.connection?).map (·.source)

/-- Input ports fed by an output port, in the order of its list. -/
def outputDestinations (graph : Graph) (node : NodeId) (index : Nat) : List PortRef :=
  match graph.outputPort? node index with
  | some port => (port.connections.filterMap graph.connection?).map (·.destination)
  | none => []

/-- What is known about the tensor of an output port. -/
def outputInfo? (graph : Graph) (port : PortRef) : Option TensorInfo :=
  if port.isOutput then (graph.outputPort? port.node port.index).bind (·.info) else none

/-- What is known about the tensor that an input port receives. -/
def inputInfo? (graph : Graph) (node : NodeId) (index : Nat) : Option TensorInfo :=
  (graph.inputSource? node index).bind graph.outputInfo?

end Graph

end OpGraph
