import OpGraph.Pattern.Basic

/-!
# Matches of a pattern

A match binds the labels of a pattern to distinct nodes of a graph that meet all
conditions. Matches are found in the order of the bound nodes: the first label takes
the nodes of the graph in turn, for each of them the second label does, and so on.
-/

namespace OpGraph

/-- Node of each label, in the order of the pattern. -/
structure Match where
  /-- Label and node. -/
  bindings : List (String × NodeId)
  deriving DecidableEq

namespace Match

/-- Node bound to a label. -/
def get? (found : Match) (label : String) : Option NodeId := found.bindings.lookup label

/-- Node bound to the first label. -/
def anchor? (found : Match) : Option NodeId := found.bindings.head?.map Prod.snd

/-- Bound nodes in the order of the pattern. -/
def ids (found : Match) : List NodeId := found.bindings.map Prod.snd

/-- Number of bound labels. -/
def size (found : Match) : Nat := found.bindings.length

end Match

namespace Pattern

/-- Nodes at the two ends of an edge, once both labels are bound. -/
def endpoints? (pattern : Pattern) (bound : List NodeId) (edge : EdgePattern) :
    Option (NodeId × NodeId) := do
  let producer ← bound[← pattern.position? edge.producer]?
  let consumer ← bound[← pattern.position? edge.consumer]?
  return (producer, consumer)

/-- Some connection is the one that an edge asks for. -/
def hasEdge (graph : Graph) (edge : EdgePattern) (ends : NodeId × NodeId) : Bool :=
  graph.connections.values.any (edge.accepts ends.1 ends.2)

/-- Every edge between bound labels has its connection. -/
def edgesConsistent (pattern : Pattern) (graph : Graph) (bound : List NodeId) : Bool :=
  pattern.edges.all fun edge => (pattern.endpoints? bound edge).all (hasEdge graph edge)

/-- Nodes of a graph that meet the conditions of one label. -/
def candidates (graph : Graph) (node : NodePattern) : List NodeId :=
  (graph.nodes.toList.filter fun entry => node.accepts entry.2).map Prod.fst

/-- All ways to bind the remaining labels after those that are bound. -/
def extensions (pattern : Pattern) (graph : Graph) :
    List NodePattern → List NodeId → List (List NodeId)
  | [], bound => [bound]
  | node :: rest, bound => (candidates graph node).flatMap fun id =>
    if bound.contains id then []
    else if pattern.edgesConsistent graph (bound ++ [id]) then
      pattern.extensions graph rest (bound ++ [id])
    else []

/-- All matches. -/
def findAll (pattern : Pattern) (graph : Graph) : List Match :=
  (pattern.extensions graph pattern.nodes []).map fun ids => ⟨pattern.labels.zip ids⟩

/-- First match at an anchor. -/
def matchAt? (pattern : Pattern) (graph : Graph) (anchor : NodeId) : Option Match :=
  (pattern.findAll graph).find? fun found => found.anchor? = some anchor

/-- Whether the bound nodes of a match, found earlier, meet the conditions now. -/
def stillMatches (pattern : Pattern) (graph : Graph) (found : Match) : Bool :=
  found.size = pattern.nodes.length &&
    ((pattern.nodes.zip found.ids).all fun (node, id) => (graph.node? id).any node.accepts) &&
    pattern.edges.all fun edge => (pattern.endpoints? found.ids edge).any (hasEdge graph edge)

end Pattern

end OpGraph
