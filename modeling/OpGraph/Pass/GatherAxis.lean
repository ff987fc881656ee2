import OpGraph.Pass.Basic

/-!
# Gather axes

A source model gives the axis of a gather as an attribute. In a canonical graph it is
the third input of the gather, fed by a constant. The constant is annotated when it is
created, so inference finds nothing left to do there.
-/

namespace OpGraph

/-- Axis of a gather from its attributes, the first one by default. -/
def gatherAxis (node : Node) : Except GraphError Int :=
  match node.attributes.get? "axis" with
  | none => .ok 0
  | some (.int axis) => .ok axis
  | some value => .error (.invalidAttribute "axis" (.kind .int value.kind))

/-- Description of the constant that holds an axis. -/
def axisDesc (node : Node) (axis : Int) : NodeDesc where
  opType := "Const"
  name := some s!"{node.name}/axis"
  attributes := .ofList [("value", .ints [axis])]
  outputs := 1

/-- The third input of a gather must not be fed yet. -/
def checkAxisInput (id : NodeId) (graph : Graph) : Except GraphError Unit :=
  if (graph.inputConnection? id 2).isSome then
    .error (.portOccupied (graph.portLabel (.input id 2)) none)
  else .ok ()

/-- Move the axis of one gather into a constant. -/
def canonizeGather (found : Match) : Edit Unit := do
  let id ← Edit.ofExcept (found.require "gather")
  let node ← Edit.check (·.requireNode id)
  let axis ← Edit.ofExcept (gatherAxis node)
  Edit.check (checkAxisInput id)
  let const ← Edit.addNode (axisDesc node axis)
  Edit.annotate (.output const 0) (.ofValue [axis])
  (List.range (3 - node.inputs.length)).forM fun _ => discard (Edit.addInputPort id)
  discard (Edit.connect (.output const 0) (.input id 2))
  Edit.removeAttributes id ["axis"]
  Edit.setOpType id "Gather"

/-- Canonize all gathers. -/
def Pass.gatherAxis : Pass where
  name := "GatherNormalizer"
  enabled := true
  pattern := .single "gather" "AttributedGather"
  after := ["FakeOutputResolver"]
  before := []
  apply := canonizeGather

end OpGraph
