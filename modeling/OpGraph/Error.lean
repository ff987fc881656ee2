import OpGraph.Attribute
import OpGraph.Graph.Port

/-!
# Errors

Every way in which a read, an edit, an inference or a pass can fail, given by its
cause. The wording of each cause stands in one place, its `message`.
-/

namespace OpGraph

/-- File format of a source model. -/
inductive SourceFormat where
  | onnx
  | mxnet
  deriving DecidableEq

instance : ToString SourceFormat where
  toString
    | .onnx => "onnx"
    | .mxnet => "mxnet"

/-- Why an attribute that is present cannot be used. -/
inductive AttrFault where
  /-- The value is of another kind, or its text does not read as the expected one. -/
  | kind (expected found : AttrKind)
  /-- A list has more or fewer entries than there are axes to describe. -/
  | axisCount
  deriving DecidableEq

/-- Why the tensors of one node could not be inferred. -/
inductive NodeFault where
  /-- The shape of an input is needed and not known. -/
  | noShape (input : Nat)
  /-- The value of an input is needed and not known. -/
  | noValue (input : Nat)
  /-- Nothing is known about an input. -/
  | unresolved (input : Nat)
  /-- An attribute that must be a list of integers is not. -/
  | noInts (name : String)
  /-- An attribute is absent or of another kind. -/
  | noAttribute (name : String)
  /-- The axis input holds more or fewer elements than one. -/
  | axisElements (count : Nat)
  /-- A constant index points outside the constant data. -/
  | indexOutOfRange (index : Int)
  /-- The window has another number of axes than the input has spatial ones. -/
  | windowRank (window input : Nat)
  /-- Strides or pads do not match the window. -/
  | windowLists
  /-- An extent of the window or a stride is not positive. -/
  | windowAxis (window stride : Int) (axis : Nat)
  /-- Prior boxes need a size and a ratio. -/
  | noPriorBoxes
  /-- Largest sizes are given, but not one for each smallest size. -/
  | priorSizes (largest smallest : Nat)
  /-- The grid input does not hold a height and a width. -/
  | gridElements (count : Nat)
  /-- The grid input is not a batch of feature maps. -/
  | gridRank (rank : Nat)
  /-- The number of box coordinates exceeds a signed 64-bit integer. -/
  | priorOverflow (height width : Int) (priors : Nat)
  deriving DecidableEq

/-- Wording of a fault at a node. -/
def NodeFault.message : NodeFault → String
  | noShape input => s!"input {input} has no shape"
  | noValue input => s!"input {input} has no constant value"
  | unresolved input => s!"input {input} is unresolved"
  | noInts name => s!"attribute '{name}' missing or not an int list"
  | noAttribute name => s!"attribute '{name}' missing"
  | axisElements count => s!"axis input must hold one value, got {count}"
  | indexOutOfRange index => s!"index {index} out of range"
  | windowRank window input => s!"{window}-d window on {input}-d input"
  | windowLists => "stride/pad length does not match window"
  | windowAxis window stride axis => s!"non-positive window {window} or stride {stride} on axis {axis}"
  | noPriorBoxes => "min_size and aspect_ratio must be non-empty"
  | priorSizes largest smallest => s!"max_size has {largest} entries, min_size has {smallest}"
  | gridElements count => s!"expected a [H, W] value, got {count} element(s)"
  | gridRank rank => s!"expected a 4-d input, got rank {rank}"
  | priorOverflow height width priors => s!"{height}x{width} grid with {priors} priors overflows"

/-- Why inference stopped. -/
inductive InferenceFault where
  /-- An axis lies outside the tensor. -/
  | axisOutOfBounds (axis : Int) (rank : Nat)
  /-- The window or the stride of a pooling is not positive. -/
  | degenerateWindow (window stride : Int)
  /-- The window of a pooling does not fit into the padded input. -/
  | oversizedWindow (window extent : Int)
  /-- No inference function is registered for an operator type. -/
  | noFunction (opType node : String)
  /-- An input port is fed by a port about which nothing is known. -/
  | unresolvedSource (port : String)
  /-- The function of a node gave up. -/
  | atNode (node opType : String) (fault : NodeFault)
  deriving DecidableEq

/-- Wording of an inference fault. -/
def InferenceFault.message : InferenceFault → String
  | axisOutOfBounds axis rank => s!"Axis {axis} out of bounds for ndim {rank}"
  | degenerateWindow window stride => s!"Non-positive pooling window {window} or stride {stride}"
  | oversizedWindow window extent => s!"Pooling window {window} larger than padded input {extent}"
  | noFunction opType node => s!"no inference function for type '{opType}' ({node})"
  | unresolvedSource port => s!"{port} is fed by an unresolved port"
  | atNode node opType fault => s!"{node} ({opType}): {fault.message}"

/-- Use of a port against its direction. Ports are given by their labels. -/
inductive PortMisuse where
  /-- A connection was to start at an input port. -/
  | sourceIsInput (port : String)
  /-- A connection was to end at an output port. -/
  | destinationIsOutput (port : String)
  /-- The far end of a connection was to move to an output port. -/
  | retarget (connection : ConnectionId) (port : String)
  /-- The near end of a connection was to move to an input port. -/
  | resource (connection : ConnectionId) (port : String)
  /-- An input port was to carry an annotation. -/
  | annotate (port : String)
  deriving DecidableEq

/-- Wording of a misused port. -/
def PortMisuse.message : PortMisuse → String
  | sourceIsInput port => s!"connection source {port} is not an output port"
  | destinationIsOutput port => s!"connection destination {port} is not an input port"
  | retarget connection port => s!"cannot retarget {connection} to {port}: not an input port"
  | resource connection port => s!"cannot re-source {connection} from {port}: not an output port"
  | annotate port => s!"{port} is not an output port"

/-- What makes a graph unfit for the requested step. -/
inductive Violation where
  /-- The connections form a cycle; the nodes are those that no order can reach. -/
  | cycle (nodes : List String)
  /-- An output marker is fed by nothing. -/
  | markerWithoutProducer (node : String)
  /-- The graph is not canonical, with one finding per breach. -/
  | notCanonical (findings : List String)
  deriving DecidableEq

/-- Wording of a violation. -/
def Violation.message : Violation → String
  | cycle nodes => "graph contains a cycle through: " ++ String.intercalate ", " nodes
  | markerWithoutProducer node => s!"FakeOutput '{node}' has no producer"
  | notCanonical findings => String.intercalate "; " findings

/-- A request that contradicts the rules of names, labels and registries. -/
inductive InternalFault where
  /-- A node cannot take a name that another node carries. -/
  | nameTaken (old new : String)
  /-- A pattern needs a node. -/
  | emptyPattern
  /-- Two nodes of a pattern share a label. -/
  | repeatedLabel (label : String)
  /-- An edge of a pattern leads to a label of no node. -/
  | unknownLabel (label : String)
  /-- A match binds no node to a label. -/
  | unboundLabel (label : String)
  /-- Two passes share a name. -/
  | repeatedPass (pass : String)
  /-- Two items of a source model share a name. -/
  | repeatedSourceName (name : String)
  /-- An inference function returned more or fewer annotations than there are output ports. -/
  | annotationCount (node : String) (returned outputs : Nat)
  /-- A pass reports a failure of its own. -/
  | reported (message : String)
  deriving DecidableEq

/-- Wording of an internal fault. -/
def InternalFault.message : InternalFault → String
  | nameTaken old new => s!"Cannot rename '{old}': name '{new}' is taken"
  | emptyPattern => "pattern has no nodes"
  | repeatedLabel label => s!"pattern label '{label}' used twice"
  | unknownLabel label => s!"pattern edge names unknown label '{label}'"
  | unboundLabel label => s!"pattern label '{label}' is unbound"
  | repeatedPass pass => s!"pass '{pass}' registered twice"
  | repeatedSourceName name => s!"source name '{name}' is used twice"
  | annotationCount node returned outputs =>
    s!"inference for '{node}' returned {returned} annotation(s) for {outputs} output(s)"
  | reported message => message

/-- Failure of an operation of the library. -/
inductive GraphError where
  /-- A required attribute of a source record is absent. -/
  | missingAttribute (name : String)
  /-- An attribute of a source record is unusable. -/
  | invalidAttribute (name : String) (fault : AttrFault)
  /-- No enabled extractor reads an operator of a format. -/
  | unsupportedOperator (format : SourceFormat) (operator : String)
  /-- The tensors of the graph could not be inferred. -/
  | shapeInferenceFailed (fault : InferenceFault)
  /-- An output port, given by its label, carries an annotation already. -/
  | annotationAlreadySet (port : String)
  /-- Order constraints of enabled passes lead back to themselves. -/
  | cyclicPassDependency (passes : List String)
  /-- An order constraint or a request names a pass that is not registered. -/
  | unknownPass (pass missing : String)
  /-- A pass left a node matching its own pattern. -/
  | passPostcondition (pass node : String)
  /-- An input port, given by its label, is fed already. -/
  | portOccupied (port : String) (feed : Option ConnectionId)
  /-- A port was used against its direction. -/
  | incompatiblePort (misuse : PortMisuse)
  /-- A node still has connections. -/
  | danglingConnection (node : String) (connections : Nat)
  /-- No node of that number or name exists. -/
  | nodeNotFound (designation : String)
  /-- The node has too few ports on the side in question. -/
  | portNotFound (port : PortRef) (node : String) (count : Nat)
  /-- No such connection exists. -/
  | connectionNotFound (connection : ConnectionId)
  /-- The graph breaks a rule. -/
  | validationFailed (violation : Violation)
  /-- The request breaks a rule. -/
  | internal (fault : InternalFault)
  deriving DecidableEq

namespace GraphError

/-- What an unusable attribute should have been, and what it is. -/
def attributeWords : AttrFault → String × String
  | .kind expected found => (expected.name, found.name)
  | .axisCount => ("one entry per spatial axis", "mismatched length")

/-- Wording of an error. -/
def message : GraphError → String
  | missingAttribute name => s!"Missing required attribute: {name}"
  | invalidAttribute name fault =>
    let (expected, found) := attributeWords fault
    s!"Invalid attribute '{name}': expected {expected}, got {found}"
  | unsupportedOperator format operator => s!"Unsupported operator '{operator}' for format {format}"
  | shapeInferenceFailed fault => s!"Shape inference failed: {fault.message}"
  | annotationAlreadySet port => s!"Output annotation already set for {port}"
  | cyclicPassDependency passes =>
    "Cyclic pass dependency among: " ++ String.intercalate ", " passes
  | unknownPass pass missing => s!"Pass '{pass}' references unknown pass '{missing}'"
  | passPostcondition pass node => s!"Pass '{pass}' left node '{node}' matching its own pattern"
  | portOccupied port none => s!"Port occupied: {port}"
  | portOccupied port (some feed) => s!"Port occupied: {port} already fed by {feed}"
  | incompatiblePort misuse => s!"Incompatible port: {misuse.message}"
  | danglingConnection node connections => s!"Node '{node}' still has {connections} connection(s)"
  | nodeNotFound designation => s!"Node not found: {designation}"
  | portNotFound port node count => s!"Port not found: {port} on '{node}' ({count} ports)"
  | connectionNotFound connection => s!"Connection not found: {connection}"
  | validationFailed violation => s!"Validation failed: {violation.message}"
  | internal fault => s!"Internal error: {fault.message}"

end GraphError

instance : ToString GraphError := ⟨GraphError.message⟩

end OpGraph
