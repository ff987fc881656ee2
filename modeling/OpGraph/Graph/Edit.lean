import OpGraph.Graph.Basic

/-!
# Editing a graph

An edit runs on a graph and either succeeds with a result or fails with an error;
both ways it leaves a graph behind, so a sequence of edits that fails halfway shows
how far it came. Each single edit first reads the graph and checks its request, and
only then writes all records of the change at once.

New nodes and connections take the next number, and the counter goes up by one without
bound. A counter of 32 bits does the same until it has handed out its last number.
-/

namespace OpGraph

/-- A computation that changes a graph and can fail. -/
abbrev Edit := EStateM GraphError Graph

/-- What removal does with connections that still touch the node. -/
inductive RemoveMode where
  /-- Refuse to remove the node. -/
  | strict
  /-- Remove the connections first. -/
  | cascade
  deriving DecidableEq

namespace Graph

/-- Name with a number appended. -/
def suffixed (base : String) (number : Nat) : String := s!"{base}_{number}"

/-- The requested name if it is free, else the one with the least free suffix. As
many suffixes as there are names, and one more, always include a free one. -/
def freshName (graph : Graph) (base : String) : String :=
  if graph.names.contains base then
    let candidates := (List.range' 1 (graph.names.size + 1)).map (suffixed base)
    (candidates.find? fun name => !graph.names.contains name).getD base
  else base

/-- Append a node with disconnected ports. -/
def insertNode (graph : Graph) (desc : NodeDesc) : Graph :=
  let id : NodeId := ⟨graph.nextNode⟩
  let name := graph.freshName (desc.name.getD (suffixed desc.opType id.index))
  let node : Node :=
    { name
      opType := desc.opType
      attributes := desc.attributes
      inputs := (List.range desc.inputs).map fun index => ⟨index, none⟩
      outputs := (List.range desc.outputs).map fun index => ⟨index, [], none⟩ }
  { graph with
    nodes := graph.nodes.insert id node
    names := graph.names.insert name id
    nextNode := graph.nextNode + 1 }

/-- Change one node. -/
def modifyNode (graph : Graph) (id : NodeId) (f : Node → Node) : Graph :=
  { graph with nodes := graph.nodes.modify id f }

/-- Change the input port at an address. -/
def modifyInput (graph : Graph) (port : PortRef) (f : InputPort → InputPort) : Graph :=
  graph.modifyNode port.node fun node => { node with inputs := node.inputs.modify port.index f }

/-- Change the output port at an address. -/
def modifyOutput (graph : Graph) (port : PortRef) (f : OutputPort → OutputPort) : Graph :=
  graph.modifyNode port.node fun node => { node with outputs := node.outputs.modify port.index f }

/-- Record at an output port that a connection starts there. -/
def attachSource (graph : Graph) (port : PortRef) (id : ConnectionId) : Graph :=
  graph.modifyOutput port fun output => { output with connections := output.connections ++ [id] }

/-- Forget at an output port that a connection starts there. -/
def detachSource (graph : Graph) (port : PortRef) (id : ConnectionId) : Graph :=
  graph.modifyOutput port fun output =>
    { output with connections := output.connections.filter (· ≠ id) }

/-- Record at an input port what feeds it. -/
def setFeed (graph : Graph) (port : PortRef) (feed : Option ConnectionId) : Graph :=
  graph.modifyInput port fun input => { input with connection := feed }

/-- Write a new connection at both of its ends and into the table. -/
def insertConnection (graph : Graph) (source destination : PortRef) : Graph :=
  let id : ConnectionId := ⟨graph.nextConnection⟩
  let linked := (graph.attachSource source id).setFeed destination (some id)
  { linked with
    connections := linked.connections.insert id ⟨source, destination⟩
    nextConnection := graph.nextConnection + 1 }

/-- Remove a connection from the table and from both of its ends. -/
def eraseConnection (graph : Graph) (id : ConnectionId) (connection : Connection) : Graph :=
  ({ graph with connections := graph.connections.erase id }.detachSource connection.source id).setFeed
    connection.destination none

/-- Remove a node and its name. -/
def eraseNode (graph : Graph) (id : NodeId) (name : String) : Graph :=
  { graph with nodes := graph.nodes.erase id, names := graph.names.erase name }

/-- Give a node another name. -/
def rename (graph : Graph) (id : NodeId) (old new : String) : Graph :=
  { graph.modifyNode id fun node => { node with name := new } with
    names := (graph.names.erase old).insert new id }

/-- Move the end of a connection from one input port to another. -/
def moveDestination (graph : Graph) (id : ConnectionId) (old new : PortRef) : Graph :=
  let moved := (graph.setFeed old none).setFeed new (some id)
  { moved with
    connections := moved.connections.modify id fun connection =>
      { connection with destination := new } }

/-- Move the start of a connection from one output port to another. -/
def moveSource (graph : Graph) (id : ConnectionId) (old new : PortRef) : Graph :=
  let moved := (graph.detachSource old id).attachSource new id
  { moved with
    connections := moved.connections.modify id fun connection => { connection with source := new } }

/-- The input port must not be fed yet. -/
def checkFree (graph : Graph) (port : PortRef) : Except GraphError Unit :=
  match graph.inputConnection? port.node port.index with
  | some feed => .error (.portOccupied (graph.portLabel port) (some feed))
  | none => .ok ()

/-- A connection may run from an existing output port to an existing free input port. -/
def checkConnect (graph : Graph) (source destination : PortRef) : Except GraphError Unit := do
  if !source.isOutput then
    throw (.incompatiblePort (.sourceIsInput (graph.portLabel source)))
  if !destination.isInput then
    throw (.incompatiblePort (.destinationIsOutput (graph.portLabel destination)))
  graph.checkPort source
  graph.checkPort destination
  graph.checkFree destination

end Graph

namespace Edit

variable {α : Type}

/-- A check as an edit that changes nothing. -/
def ofExcept : Except GraphError α → Edit α
  | .ok value => pure value
  | .error error => throw error

/-- Check the graph without changing it. -/
def check (test : Graph → Except GraphError α) : Edit α := do
  ofExcept (test (← get))

/-- Create a node and return its number. -/
def addNode (desc : NodeDesc) : Edit NodeId := do
  let graph ← get
  set (graph.insertNode desc)
  return ⟨graph.nextNode⟩

/-- Append an input port and return its position. -/
def addInputPort (id : NodeId) : Edit Nat := do
  let node ← check (·.requireNode id)
  let index := node.inputs.length
  modify (·.modifyNode id fun node => { node with inputs := node.inputs ++ [⟨index, none⟩] })
  return index

/-- Append an output port and return its position. -/
def addOutputPort (id : NodeId) : Edit Nat := do
  let node ← check (·.requireNode id)
  let index := node.outputs.length
  modify (·.modifyNode id fun node => { node with outputs := node.outputs ++ [⟨index, [], none⟩] })
  return index

/-- Give a node a name that no other node carries. -/
def renameNode (id : NodeId) (name : String) : Edit Unit := do
  let node ← check (·.requireNode id)
  let graph ← get
  if node.name = name then return ()
  if graph.names.contains name then throw (.internal (.nameTaken node.name name))
  set (graph.rename id node.name name)

/-- Connect an output port to an input port and return the number of the connection. -/
def connect (source destination : PortRef) : Edit ConnectionId := do
  check (·.checkConnect source destination)
  let graph ← get
  set (graph.insertConnection source destination)
  return ⟨graph.nextConnection⟩

/-- Remove a connection and return what it joined. -/
def disconnect (id : ConnectionId) : Edit Connection := do
  let connection ← check (·.requireConnection id)
  modify (·.eraseConnection id connection)
  return connection

/-- Remove the connection that feeds an input port, if one does. -/
def disconnectInput (node : NodeId) (index : Nat) :
    Edit (Option (ConnectionId × Connection)) := do
  check (·.checkPort (.input node index))
  match (← get).inputConnection? node index with
  | some id => return some (id, ← disconnect id)
  | none => return none

/-- Remove a node and return it as it was when its last connection was gone. -/
def removeNode (id : NodeId) (mode : RemoveMode) : Edit Node := do
  let node ← check (·.requireNode id)
  let attached := node.connectionIds
  if mode = .strict ∧ attached ≠ [] then
    throw (.danglingConnection node.name attached.length)
  attached.forM fun connection => discard (disconnect connection)
  let bare ← check (·.requireNode id)
  modify (·.eraseNode id bare.name)
  return bare

/-- Let a connection end at another free input port. -/
def rewireDestination (id : ConnectionId) (port : PortRef) : Edit Unit := do
  let connection ← check (·.requireConnection id)
  let graph ← get
  if !port.isInput then throw (.incompatiblePort (.retarget id (graph.portLabel port)))
  check (·.checkPort port)
  if port = connection.destination then return ()
  check (·.checkFree port)
  set (graph.moveDestination id connection.destination port)

/-- Let a connection start at another output port, as the last one in its list. -/
def rewireSource (id : ConnectionId) (port : PortRef) : Edit Unit := do
  let connection ← check (·.requireConnection id)
  let graph ← get
  if !port.isOutput then throw (.incompatiblePort (.resource id (graph.portLabel port)))
  check (·.checkPort port)
  if port = connection.source then return ()
  set (graph.moveSource id connection.source port)

/-- Replace what is known about the tensor of an output port. -/
def reannotate (port : PortRef) (info : TensorInfo) : Edit Unit := do
  let graph ← get
  if !port.isOutput then throw (.incompatiblePort (.annotate (graph.portLabel port)))
  check (·.checkPort port)
  set (graph.modifyOutput port fun output => { output with info := some info })

/-- Say for the first time what is known about the tensor of an output port. -/
def annotate (port : PortRef) (info : TensorInfo) : Edit Unit := do
  let graph ← get
  if (graph.outputInfo? port).isSome then throw (.annotationAlreadySet (graph.portLabel port))
  reannotate port info

/-- Change the operator type of a node. -/
def setOpType (id : NodeId) (opType : String) : Edit Unit := do
  discard (check (·.requireNode id))
  modify (·.modifyNode id fun node => { node with opType })

/-- Set one attribute of a node. -/
def setAttribute (id : NodeId) (name : String) (value : AttrValue) : Edit Unit := do
  discard (check (·.requireNode id))
  modify (·.modifyNode id fun node => { node with attributes := node.attributes.set name value })

/-- Remove attributes of a node, leaving a record of those that were present. -/
def removeAttributes (id : NodeId) (names : List String) : Edit Unit := do
  discard (check (·.requireNode id))
  modify (·.modifyNode id fun node => { node with attributes := node.attributes.eraseAll names })

end Edit

end OpGraph
