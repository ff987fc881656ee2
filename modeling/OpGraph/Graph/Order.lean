import OpGraph.Graph.Basic

/-!
# Topological order

Nodes in an order in which every node stands after all nodes that feed it. Nodes
wait in a queue until they are listed: first those without a connected input, by
creation, then each node at the moment when the last of its sources is listed.
-/

namespace OpGraph.Graph

/-- Sources of the connected inputs of a node. -/
def predecessors (graph : Graph) (id : NodeId) : List NodeId :=
  match graph.node? id with
  | some node => ((node.inputs.filterMap (·.connection)).filterMap graph.connection?).map (·.source.node)
  | none => []

/-- Destinations of a node, in the order of its ports and of their connections. -/
def successors (graph : Graph) (id : NodeId) : List NodeId :=
  match graph.node? id with
  | some node =>
    ((node.outputs.flatMap (·.connections)).filterMap graph.connection?).map (·.destination.node)
  | none => []

/-- Nodes that become ready when `id` is listed as the last of `listed`. A node that
is fed several times stands where its last connection stands. -/
def released (graph : Graph) (listed : List NodeId) (id : NodeId) : List NodeId :=
  (graph.successors id).reverse.eraseDups.reverse.filter fun next =>
    (graph.predecessors next).all listed.contains

/-- Nodes without a connected input. -/
def roots (graph : Graph) : List NodeId :=
  (graph.nodes.toList.filter fun (_, node) => node.inputs.all (·.isDisconnected)).map Prod.fst

/-- List the nodes of the queue, each followed in the queue by those it releases.
Every step lists one node, so there are at most `steps` of them. -/
def listFrom (graph : Graph) (steps : Nat) (queue listed : List NodeId) : List NodeId :=
  match steps, queue with
  | 0, _ | _, [] => listed
  | steps + 1, id :: rest =>
    let listed := listed ++ [id]
    graph.listFrom steps (rest ++ graph.released listed id) listed

/-- All nodes, each after the nodes that feed it. A graph with a cycle has no such
order; the error names the nodes that were never reached. -/
def topologicalOrder (graph : Graph) : Except GraphError (List NodeId) :=
  let order := graph.listFrom graph.nodes.size graph.roots []
  if order.length = graph.nodes.size then .ok order
  else
    let unreached := graph.nodes.toList.filter fun (id, _) => !order.contains id
    .error (.validationFailed (.cycle (unreached.map fun (_, node) => node.name)))

end OpGraph.Graph
