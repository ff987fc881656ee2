import OpGraph.Graph.Basic

/-!
# Inference functions

An inference function says what is known about the outputs of a node from what is
known about its inputs. It sees the node alone, with one entry for each input
port, and answers with one entry for each output port. This module holds what all
of them share, and the functions of the operators that do no arithmetic.
-/

namespace OpGraph

/-- What is known about the outputs of a node, given the same about its inputs. -/
abbrev InferFn := Node → List TensorInfo → Except GraphError (List TensorInfo)

/-- Inference function of each operator type. -/
abbrev InferRegistry := OrderedMap String InferFn

namespace Infer

/-- Error of one node. -/
def fault (node : Node) (reason : NodeFault) : GraphError :=
  .shapeInferenceFailed (.atNode node.name node.opType reason)

/-- A value that must be there, or a fault of the node. -/
def require {α : Type} (node : Node) (reason : NodeFault) : Option α → Except GraphError α
  | some value => .ok value
  | none => .error (fault node reason)

/-- Shape of an input, which must be known. -/
def inputShape (node : Node) (inputs : List TensorInfo) (index : Nat) : Except GraphError Shape :=
  require node (.noShape index) (inputs[index]?.bind (·.shape))

/-- Value of an input, which must be known. -/
def inputValue (node : Node) (inputs : List TensorInfo) (index : Nat) :
    Except GraphError (List Int) :=
  require node (.noValue index) (inputs[index]?.bind (·.value))

/-- Integer list of the node, which must be there. -/
def requireInts (node : Node) (name : String) : Except GraphError (List Int) :=
  require node (.noInts name) (node.attributes.ints? name)

/-- The same for every output port. -/
def replicate (node : Node) (info : TensorInfo) : List TensorInfo :=
  List.replicate node.outputs.length info

/-- A graph input has the shape that it declares. -/
def parameter : InferFn := fun node _ => do
  return replicate node (.ofShape (← requireInts node "shape"))

/-- A constant has its value; its shape is the declared one or else the length of the value. -/
def const : InferFn := fun node _ => do
  let info := TensorInfo.ofValue (← requireInts node "value")
  return replicate node { info with shape := (node.attributes.ints? "shape").or info.shape }

/-- The shape of the input is a constant value. -/
def shapeOf : InferFn := fun node inputs => do
  return replicate node (.ofValue (← inputShape node inputs 0))

/-- A graph output has no output port of its own. -/
def result : InferFn := fun _ _ => .ok []

/-- The output is like the first input, about which something must be known. -/
def elementwise : InferFn := fun node inputs => do
  let input ← require node (.unresolved 0) (inputs.head?.filter (·.isResolved))
  return replicate node input

/-- Operator types whose output is like their input. -/
def elementwiseTypes : List String :=
  ["Relu", "Identity", "FakeOutput", "Sigmoid", "Tanh", "SoftPlus", "SoftSign"]

end Infer

end OpGraph
