import OpGraph.Proofs.Graph.Lookup

/-!
# Nodes without their connections

A change of connections rewrites slots and lists and nothing else of a node. What is left of a
node when slots and lists are emptied is therefore the same before and after: its name, type and
attributes, its ports and what is known about them.
-/

namespace OpGraph

/-- The node with empty slots and lists. -/
def Node.bare (node : Node) : Node :=
  { node with
    inputs := node.inputs.map fun port => ⟨port.index, none⟩
    outputs := node.outputs.map fun port => ⟨port.index, [], port.info⟩ }

@[simp] theorem Node.portCount_bare (node : Node) (direction : Direction) :
    node.bare.portCount direction = node.portCount direction := by
  cases direction <;> simp [portCount, bare]

/-- A list stays as it is under a map to which a change of one entry does not show. -/
theorem map_modify_of_eq {α β : Type} {g : α → β} {f : α → α} (hf : ∀ a, g (f a) = g a)
    (items : List α) (index : Nat) : (items.modify index f).map g = items.map g := by
  apply List.ext_getElem?
  intro position
  rw [List.getElem?_map, List.getElem?_map, List.getElem?_modify]
  cases items[position]? with
  | none => rfl
  | some item =>
    simp only [Option.map_eq_map, Option.map_some]
    split
    · rw [hf]
    · rfl

/-- A change of an input port that keeps its number does not show on the bare node. -/
theorem Node.bare_modifyInput {f : InputPort → InputPort} (hf : ∀ port, (f port).index = port.index)
    (node : Node) (index : Nat) :
    { node with inputs := node.inputs.modify index f }.bare = node.bare := by
  have hports := map_modify_of_eq (g := fun port => (⟨port.index, none⟩ : InputPort)) (f := f)
    (fun port => by rw [hf]) node.inputs index
  simp only [bare, hports]

/-- A change of an output port that keeps its number and what is known does not show on the bare
node. -/
theorem Node.bare_modifyOutput {f : OutputPort → OutputPort}
    (hf : ∀ port, (f port).index = port.index ∧ (f port).info = port.info) (node : Node)
    (index : Nat) : { node with outputs := node.outputs.modify index f }.bare = node.bare := by
  have hports := map_modify_of_eq (g := fun port => (⟨port.index, [], port.info⟩ : OutputPort))
    (f := f) (fun port => by rw [(hf port).1, (hf port).2]) node.outputs index
  simp only [bare, hports]

/-- A change of one entry passes through a map that it commutes with. -/
theorem map_modify_comm {α β : Type} {g : α → β} {f : α → α} {h : β → β}
    (hf : ∀ a, g (f a) = h (g a)) (items : List α) (index : Nat) :
    (items.modify index f).map g = (items.map g).modify index h := by
  apply List.ext_getElem?
  intro position
  rw [List.getElem?_map, List.getElem?_modify, List.getElem?_modify, List.getElem?_map]
  cases items[position]? with
  | none => rfl
  | some item =>
    simp only [Option.map_eq_map, Option.map_some]
    split
    · rw [hf]
    · rfl

/-- Knowledge about a port shows on the bare node. -/
theorem Node.bare_annotate (node : Node) (index : Nat) (info : TensorInfo) :
    { node with outputs := node.outputs.modify index ({ · with info := some info }) }.bare =
      { node.bare with outputs := node.bare.outputs.modify index ({ · with info := some info }) } := by
  have hports := map_modify_comm (g := fun port => (⟨port.index, [], port.info⟩ : OutputPort))
    (f := ({ · with info := some info })) (h := ({ · with info := some info })) (fun _ => rfl)
    node.outputs index
  simp only [bare, hports]

namespace Graph

variable {graph changed : Graph} {id : NodeId} {connection : ConnectionId}
  {source destination port old new : PortRef}

/-- Node of that number with empty slots and lists. -/
def bare? (graph : Graph) (id : NodeId) : Option Node := (graph.node? id).map Node.bare

/-- A node that exists shows as its bare node. -/
theorem bare?_of_node? {node : Node} (hn : graph.node? id = some node) :
    graph.bare? id = some node.bare := by
  rw [bare?, hn]
  rfl

/-- A node and its bare node exist together. -/
theorem isSome_bare? (graph : Graph) (id : NodeId) :
    (graph.bare? id).isSome = (graph.node? id).isSome := Option.isSome_map

theorem bare?_eq_none_iff : graph.bare? id = none ↔ graph.node? id = none := Option.map_eq_none_iff

/-- Whether a port exists shows on the bare nodes. -/
theorem hasPort_iff_bare? :
    graph.HasPort port ↔ ∃ node, graph.bare? port.node = some node ∧
      port.index < node.portCount port.direction := by
  constructor
  · rintro ⟨node, hn, hi⟩
    exact ⟨node.bare, bare?_of_node? hn, by rwa [Node.portCount_bare]⟩
  · rintro ⟨bare, hbare, hi⟩
    obtain ⟨node, hn, rfl⟩ := Option.map_eq_some_iff.mp hbare
    exact ⟨node, hn, by rwa [Node.portCount_bare] at hi⟩

/-- What is known about an output port shows on the bare nodes. -/
theorem outputInfo?_eq_bare? (graph : Graph) (port : PortRef) :
    graph.outputInfo? port =
      if port.isOutput then
        (graph.bare? port.node).bind fun node => node.outputs[port.index]?.bind (·.info)
      else none := by
  unfold outputInfo? outputPort? bare?
  split
  · cases graph.node? port.node with
    | none => rfl
    | some node => cases hp : node.outputs[port.index]? <;> simp [Node.bare, hp]
  · rfl

/-- What is known about one output of a node. -/
theorem outputInfo?_output {bare : Node} (hbare : graph.bare? id = some bare) (index : Nat) :
    graph.outputInfo? (.output id index) = bare.outputs[index]?.bind (·.info) := by
  rw [outputInfo?_eq_bare?]
  change ((graph.bare? id).bind fun node => node.outputs[index]?.bind (·.info)) = _
  rw [hbare]
  rfl

/-- What is said about a port is said by the node. -/
theorem exists_output_of_outputInfo? {info : TensorInfo}
    (hinfo : graph.outputInfo? port = some info) :
    ∃ node output, graph.node? port.node = some node ∧ output ∈ node.outputs ∧
      output.info = some info := by
  unfold outputInfo? outputPort? at hinfo
  split at hinfo
  · obtain ⟨output, houtput, hinfo⟩ := Option.bind_eq_some_iff.mp hinfo
    obtain ⟨node, hn, houtput⟩ := Option.bind_eq_some_iff.mp houtput
    exact ⟨node, output, hn, List.mem_of_getElem? houtput, hinfo⟩
  · cases hinfo

/-- The node, if it exists, has the type. -/
def OfType (graph : Graph) (id : NodeId) (opType : String) : Prop :=
  ∀ bare, graph.bare? id = some bare → bare.opType = opType

/-- Graphs with the same bare nodes know the same. -/
theorem outputInfo?_congr (h : ∀ id, changed.bare? id = graph.bare? id) (port : PortRef) :
    changed.outputInfo? port = graph.outputInfo? port := by
  rw [outputInfo?_eq_bare?, outputInfo?_eq_bare?, h]

/-- A change of a node shows on the bare node as the corresponding change. -/
theorem bare?_modifyNode {f g : Node → Node} (hf : ∀ node, (f node).bare = g node.bare)
    (id other : NodeId) :
    (graph.modifyNode id f).bare? other =
      if other = id then (graph.bare? other).map g else graph.bare? other := by
  unfold bare?
  rw [node?_modifyNode]
  split
  · cases graph.node? other <;> simp [hf]
  · rfl

/-- A change that the bare node does not show. -/
theorem bare?_modifyNode_of_bare {f : Node → Node} (hf : ∀ node, (f node).bare = node.bare)
    (id other : NodeId) : (graph.modifyNode id f).bare? other = graph.bare? other := by
  rw [bare?_modifyNode (g := fun node => node) hf]
  simp

/-- A change of an input port that keeps its number does not show on the bare nodes. -/
theorem bare?_modifyInput {f : InputPort → InputPort} (hf : ∀ port, (f port).index = port.index)
    (port : PortRef) (other : NodeId) : (graph.modifyInput port f).bare? other = graph.bare? other :=
  bare?_modifyNode_of_bare (f := fun node => { node with inputs := node.inputs.modify port.index f })
    (fun node => node.bare_modifyInput hf port.index) port.node other

/-- A change of an output port that keeps its number and what is known does not show on the bare
nodes. -/
theorem bare?_modifyOutput {f : OutputPort → OutputPort}
    (hf : ∀ port, (f port).index = port.index ∧ (f port).info = port.info) (port : PortRef)
    (other : NodeId) : (graph.modifyOutput port f).bare? other = graph.bare? other :=
  bare?_modifyNode_of_bare (f := fun node => { node with outputs := node.outputs.modify port.index f })
    (fun node => node.bare_modifyOutput hf port.index) port.node other

@[simp] theorem bare?_setFeed (feed : Option ConnectionId) (other : NodeId) :
    (graph.setFeed port feed).bare? other = graph.bare? other :=
  bare?_modifyInput (f := ({ · with connection := feed })) (fun _ => rfl) port other

@[simp] theorem bare?_attachSource (other : NodeId) :
    (graph.attachSource port connection).bare? other = graph.bare? other :=
  bare?_modifyOutput
    (f := fun output => { output with connections := output.connections ++ [connection] })
    (fun _ => ⟨rfl, rfl⟩) port other

@[simp] theorem bare?_detachSource (other : NodeId) :
    (graph.detachSource port connection).bare? other = graph.bare? other :=
  bare?_modifyOutput
    (f := fun output => { output with connections := output.connections.filter (· ≠ connection) })
    (fun _ => ⟨rfl, rfl⟩) port other

@[simp] theorem bare?_insertConnection (other : NodeId) :
    (graph.insertConnection source destination).bare? other = graph.bare? other := by
  change ((graph.attachSource source _).setFeed destination _).bare? other = _
  rw [bare?_setFeed, bare?_attachSource]

@[simp] theorem bare?_eraseConnection (ends : Connection) (other : NodeId) :
    (graph.eraseConnection connection ends).bare? other = graph.bare? other := by
  change ((graph.detachSource ends.source connection).setFeed ends.destination none).bare? other = _
  rw [bare?_setFeed, bare?_detachSource]

@[simp] theorem bare?_moveDestination (other : NodeId) :
    (graph.moveDestination connection old new).bare? other = graph.bare? other := by
  change ((graph.setFeed old none).setFeed new (some connection)).bare? other = _
  rw [bare?_setFeed, bare?_setFeed]

@[simp] theorem bare?_moveSource (other : NodeId) :
    (graph.moveSource connection old new).bare? other = graph.bare? other := by
  change ((graph.detachSource old connection).attachSource new connection).bare? other = _
  rw [bare?_attachSource, bare?_detachSource]

end Graph

end OpGraph
