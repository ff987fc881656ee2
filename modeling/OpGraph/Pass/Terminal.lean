import OpGraph.Graph.Edit

/-!
# Terminals

In a canonical graph every output port has a consumer. A port that nothing consumes
gets a terminal: a graph output that is connected to that port alone.
-/

namespace OpGraph

/-- Description of the terminal of one output port. It says whether the port has to
stay when outputs are written, as its node demands. -/
def terminalDesc (node : Node) (index : Nat) : NodeDesc where
  opType := "Result"
  name := some s!"{node.name}/Result_port_{index}/"
  attributes := .ofList
    [("keep_output_port", .bool (node.attributes.isSet "remove_values_output"))]
  inputs := 1

namespace Edit

/-- Attach a terminal to one output port of a node. -/
def addTerminal (id : NodeId) (node : Node) (index : Nat) : Edit NodeId := do
  let terminal ← addNode (terminalDesc node index)
  discard (connect (.output id index) (.input terminal 0))
  return terminal

/-- Attach a terminal to each listed output port that nothing consumed before, and
return the terminals in the order of the list. -/
def terminatePorts (id : NodeId) (ports : List Nat) : Edit (List NodeId) := do
  let node ← check (·.requireNode id)
  ports.forM fun index => check (·.checkPort (.output id index))
  (ports.filter node.disconnectedOutputs.contains).mapM (addTerminal id node)

/-- Attach a terminal to every output port of a node that nothing consumes. -/
def terminate (id : NodeId) : Edit (List NodeId) := do
  let node ← check (·.requireNode id)
  terminatePorts id node.disconnectedOutputs

end Edit

end OpGraph
