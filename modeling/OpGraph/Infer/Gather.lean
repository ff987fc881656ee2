import OpGraph.Infer.Basic
import OpGraph.Tensor.Shape

/-!
# Inference of gathers

A gather replaces one axis of its data by the shape of its indices. The axis is an
attribute or a constant on the third input. A gather from one-dimensional constant
data is folded, so that extents picked out of a shape stay constant.
-/

namespace OpGraph.Infer

/-- Element of constant data at an index, where a negative one counts from the end. -/
def pick (node : Node) (data : List Int) (index : Int) : Except GraphError Int :=
  let position := if index < 0 then index + data.length else index
  require node (.indexOutOfRange position)
    (if position < 0 then none else data[position.toNat]?)

/-- Value of a gather from one-dimensional data, if data and indices are constant. -/
def foldGather (node : Node) (rank : Nat) (data indices : Option (List Int)) :
    Except GraphError (Option (List Int)) :=
  match data, indices with
  | some elements, some positions =>
    if rank = 1 then do return some (← positions.mapM (pick node elements)) else .ok none
  | _, _ => .ok none

/-- Gather along an axis that is given already. -/
def gatherAlong (node : Node) (inputs : List TensorInfo) (axis : Int) :
    Except GraphError (List TensorInfo) := do
  let data ← inputShape node inputs 0
  let indices ← inputShape node inputs 1
  let position ← normalizeAxis axis data.length
  let value ← foldGather node data.length (inputs[0]?.bind (·.value)) (inputs[1]?.bind (·.value))
  let shape := data.take position ++ indices ++ data.drop (position + 1)
  return replicate node ⟨some shape, value⟩

/-- The axis is an attribute. -/
def attributedGather : InferFn := fun node inputs => do
  gatherAlong node inputs (← require node (.noAttribute "axis") (node.attributes.int? "axis"))

/-- The axis is the one element of the constant on the third input. -/
def gather : InferFn := fun node inputs => do
  match ← inputValue node inputs 2 with
  | [axis] => gatherAlong node inputs axis
  | other => throw (fault node (.axisElements other.length))

end OpGraph.Infer
