import OpGraph.Graph.Edit
import OpGraph.Source.Registry

/-!
# Source models

A source model lists graph inputs, operator records, edges between them and the
tensors that are requested as outputs, all by name. Import builds the graph that it
describes, where each requested output is a marker followed by a graph output.
-/

namespace OpGraph

/-- One operator of a source model. -/
structure SourceOperator where
  /-- Name, unique in the model. -/
  name : String
  /-- Operator in the words of the format. -/
  operator : String
  /-- Attributes in the encoding of the format. -/
  record : RawRecord
  /-- Input ports that the model uses. -/
  inputs : Nat := 0
  /-- Output ports that the model uses. -/
  outputs : Nat := 0

/-- A tensor that flows from one named item to another. -/
structure SourceEdge where
  /-- Input or operator that delivers the tensor. -/
  source : String
  /-- Output port of it. -/
  sourcePort : Nat
  /-- Operator that receives the tensor. -/
  destination : String
  /-- Input port of it. -/
  destinationPort : Nat

/-- A tensor that is requested as an output of the model. -/
structure SourceOutput where
  /-- Name under which it is requested. -/
  name : String
  /-- Input, operator or earlier output that delivers it. -/
  source : String
  /-- Output port of it. -/
  sourcePort : Nat

/-- A model as it comes from a file. -/
structure SourceModel where
  /-- Format of the operator records. -/
  format : SourceFormat
  /-- Name and shape of each graph input. -/
  inputs : List (String × Shape) := []
  /-- Operators in the order of the file. -/
  operators : List SourceOperator := []
  /-- Edges in the order of the file. -/
  edges : List SourceEdge := []
  /-- Requested outputs in the order of the file. -/
  outputs : List SourceOutput := []

/-- Node of each name of a source model. -/
abbrev SourceNames := OrderedMap String NodeId

namespace SourceNames

/-- Enter a name that is new. -/
def define (names : SourceNames) (name : String) (id : NodeId) : Except GraphError SourceNames :=
  if names.contains name then .error (.internal (.repeatedSourceName name))
  else .ok (names.insert name id)

/-- Node of a name, which must have been entered. -/
def resolve (names : SourceNames) (name : String) : Except GraphError NodeId :=
  match names.get? name with
  | some id => .ok id
  | none => .error (.nodeNotFound name)

end SourceNames

namespace SourceModel

/-- Create a node for a name of the model. -/
def define (names : SourceNames) (name : String) (desc : NodeDesc) : Edit (NodeId × SourceNames) := do
  let id ← Edit.addNode { desc with name := some name }
  return (id, ← Edit.ofExcept (names.define name id))

/-- A graph input declares its shape and delivers one tensor. -/
def addInput (names : SourceNames) (input : String × Shape) : Edit SourceNames := do
  let attributes := .ofList [("shape", .ints input.2)]
  return (← define names input.1 { opType := "Parameter", attributes, outputs := 1 }).2

/-- An operator has as many ports as the model uses, but no fewer than it needs. -/
def addOperator (names : SourceNames) (item : SourceOperator × Extracted) : Edit SourceNames := do
  let (operator, extracted) := item
  return (← define names operator.name
    { opType := extracted.opType
      attributes := extracted.attributes
      inputs := max operator.inputs extracted.inputs
      outputs := max operator.outputs extracted.outputs }).2

/-- Connect the ends of an edge. -/
def addEdge (names : SourceNames) (edge : SourceEdge) : Edit Unit := do
  let source ← Edit.ofExcept (names.resolve edge.source)
  let destination ← Edit.ofExcept (names.resolve edge.destination)
  discard (Edit.connect (.output source edge.sourcePort) (.input destination edge.destinationPort))

/-- Put a marker and a graph output behind a requested tensor. -/
def addOutput (names : SourceNames) (output : SourceOutput) : Edit SourceNames := do
  let source ← Edit.ofExcept (names.resolve output.source)
  let (marker, names) ← define names output.name { opType := "FakeOutput", inputs := 1, outputs := 1 }
  let sink ← Edit.addNode { opType := "Result", name := some s!"{output.name}/sink", inputs := 1 }
  discard (Edit.connect (.output source output.sourcePort) (.input marker 0))
  discard (Edit.connect (.output marker 0) (.input sink 0))
  return names

/-- Build inputs, operators, edges and outputs, in this order. -/
def build (model : SourceModel) (extracted : List Extracted) : Edit Unit := do
  let names ← model.inputs.foldlM addInput ∅
  let names ← (model.operators.zip extracted).foldlM addOperator names
  model.edges.forM (addEdge names)
  discard (model.outputs.foldlM addOutput names)

/-- The graph of a model. All records are read before the first node is made. -/
def toGraph (model : SourceModel) (registry : ExtractorRegistry) : Except GraphError Graph := do
  let extracted ← model.operators.mapM fun operator =>
    registry.extract model.format operator.operator operator.record
  match (model.build extracted).run .empty with
  | .ok () graph => return graph
  | .error error _ => throw error

end SourceModel

end OpGraph
