/-!
# Names of the parts of a graph

Nodes and connections are known by numbers that are never used twice in one
graph. A port is known by its node, its direction and its position.
-/

namespace OpGraph

/-- Identity of a node: how many nodes were created before it. -/
structure NodeId where
  /-- Number of the node. -/
  index : Nat
  deriving DecidableEq

instance : ToString NodeId := ⟨fun id => s!"n{id.index}"⟩

/-- Identity of a connection: how many connections were created before it. -/
structure ConnectionId where
  /-- Number of the connection. -/
  index : Nat
  deriving DecidableEq

instance : ToString ConnectionId := ⟨fun id => s!"c{id.index}"⟩

/-- Side of a node on which a port lies. -/
inductive Direction where
  | input
  | output
  deriving DecidableEq

instance : ToString Direction where
  toString
    | .input => "in"
    | .output => "out"

/-- Address of a port, whether or not the port exists. -/
structure PortRef where
  /-- Node that carries the port. -/
  node : NodeId
  /-- Side of the port. -/
  direction : Direction
  /-- Position among the ports of that side. -/
  index : Nat
  deriving DecidableEq

namespace PortRef

/-- Address of an input port. -/
def input (node : NodeId) (index : Nat) : PortRef := ⟨node, .input, index⟩

/-- Address of an output port. -/
def output (node : NodeId) (index : Nat) : PortRef := ⟨node, .output, index⟩

/-- The port receives a tensor. -/
def isInput (port : PortRef) : Bool := port.direction = .input

/-- The port delivers a tensor. -/
def isOutput (port : PortRef) : Bool := port.direction = .output

end PortRef

instance : ToString PortRef := ⟨fun port => s!"{port.node}:{port.direction}{port.index}"⟩

/-- A tensor flowing from an output port to an input port. -/
structure Connection where
  /-- Port that delivers the tensor. -/
  source : PortRef
  /-- Port that receives the tensor. -/
  destination : PortRef
  deriving DecidableEq

end OpGraph
