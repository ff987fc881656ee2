import OpGraph.Pass.Basic
import OpGraph.Pass.Terminal

/-!
# Pooling by method

A generic pooling names its method in an attribute. In a canonical graph the method is
the operator type. A maximum pooling delivers the maxima and their positions, so it
gets a second output port where it lacks one. All output ports end in a consumer.
-/

namespace OpGraph

/-- Pattern of the poolings of one method. -/
def poolingPattern (method : String) : Pattern :=
  (Pattern.single "pool" "Pooling").constrain (.equals "pool_method" (.str method))

/-- Add the port for the positions, with what is known about the maxima. -/
def addIndicesPort (id : NodeId) : Edit Unit := do
  let values := (← get).outputInfo? (.output id 0)
  let indices ← Edit.addOutputPort id
  if let some info := values then Edit.annotate (.output id indices) info

/-- Make a maximum pooling. -/
def canonizeMaxPool (found : Match) : Edit Unit := do
  let id ← Edit.ofExcept (found.require "pool")
  let node ← Edit.check (·.requireNode id)
  if node.outputs.length < 2 then addIndicesPort id
  Edit.setOpType id "MaxPool"
  Edit.removeAttributes id ["pool_method", "exclude_pad"]
  discard (Edit.terminate id)

/-- Make an average pooling. -/
def canonizeAvgPool (found : Match) : Edit Unit := do
  let id ← Edit.ofExcept (found.require "pool")
  Edit.setOpType id "AvgPool"
  Edit.removeAttributes id ["pool_method"]
  discard (Edit.terminate id)

/-- Canonize all maximum poolings. -/
def Pass.maxPool : Pass where
  name := "MaxPool"
  enabled := true
  pattern := poolingPattern "max"
  after := ["FakeOutputResolver"]
  before := []
  apply := canonizeMaxPool

/-- Canonize all average poolings. -/
def Pass.avgPool : Pass where
  name := "AvgPool"
  enabled := true
  pattern := poolingPattern "avg"
  after := ["FakeOutputResolver"]
  before := []
  apply := canonizeAvgPool

end OpGraph
