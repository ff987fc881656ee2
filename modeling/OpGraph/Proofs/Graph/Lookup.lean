import Mathlib.Tactic.Common
import OpGraph.Graph.Edit

/-!
# What look-ups find after a change

Each change of a graph rewrites some of its records. The equations of this module say,
change by change, what is found afterwards: nodes and names by their keys, connections by
their number, the connection in the slot of an input port and the list at an output port.
Later proofs read graphs through these look-ups only.
-/

namespace OpGraph

namespace Node

variable (node : Node)

/-- Connection in the slot of an input port, if there is such a port and it is fed. -/
def feed? (index : Nat) : Option ConnectionId := node.inputs[index]?.bind (·.connection)

/-- Connections listed at an output port, none where there is no such port. -/
def listed (index : Nat) : List ConnectionId := (node.outputs[index]?.map (·.connections)).getD []

variable {node}

/-- A listed connection is one of the output port at that position. -/
theorem mem_listed {index : Nat} {id : ConnectionId} :
    id ∈ node.listed index ↔ ∃ port, node.outputs[index]? = some port ∧ id ∈ port.connections := by
  unfold listed
  cases node.outputs[index]? <;> simp

/-- The list of a node at an output port that it has. -/
theorem listed_of_lt {index : Nat} (h : index < node.outputs.length) :
    node.listed index = node.outputs[index].connections := by
  simp [listed, List.getElem?_eq_getElem h]

theorem mem_appendNew {ids : List ConnectionId} {new id : ConnectionId} :
    id ∈ appendNew ids new ↔ id ∈ ids ∨ id = new := by
  unfold appendNew
  split
  · rename_i hnew
    rw [or_iff_left_of_imp]
    rintro rfl
    exact List.contains_iff_mem.mp hnew
  · rw [List.mem_append, List.mem_singleton]

theorem mem_foldl_appendNew {added ids : List ConnectionId} {id : ConnectionId} :
    id ∈ added.foldl appendNew ids ↔ id ∈ ids ∨ id ∈ added := by
  induction added generalizing ids with
  | nil => simp
  | cons new rest ih => rw [List.foldl_cons, ih, mem_appendNew, or_assoc, List.mem_cons]

/-- What is appended if it is new does not come twice. -/
theorem nodup_foldl_appendNew {added ids : List ConnectionId} (h : ids.Nodup) :
    (added.foldl appendNew ids).Nodup := by
  induction added generalizing ids with
  | nil => exact h
  | cons new rest ih =>
    refine ih ?_
    unfold appendNew
    split
    · exact h
    · rename_i hnew
      refine List.nodup_append.mpr ⟨h, List.pairwise_singleton _ new, ?_⟩
      rintro id hid _ hsame rfl
      rw [List.mem_singleton.mp hsame] at hid
      exact hnew (List.contains_iff_mem.mpr hid)

/-- The connections of a node are those in its slots and those in its lists. -/
theorem mem_connectionIds {id : ConnectionId} :
    id ∈ node.connectionIds ↔
      (∃ index, node.feed? index = some id) ∨ ∃ index, id ∈ node.listed index := by
  have hincoming : id ∈ node.inputs.filterMap (·.connection) ↔
      ∃ index, node.feed? index = some id := by
    simp only [List.mem_filterMap, feed?, Option.bind_eq_some_iff]
    constructor
    · rintro ⟨port, hport, hid⟩
      obtain ⟨index, hindex⟩ := List.mem_iff_getElem?.mp hport
      exact ⟨index, port, hindex, hid⟩
    · rintro ⟨index, port, hindex, hid⟩
      exact ⟨port, List.mem_iff_getElem?.mpr ⟨index, hindex⟩, hid⟩
  have houtgoing : id ∈ node.outputs.flatMap (·.connections) ↔ ∃ index, id ∈ node.listed index := by
    simp only [List.mem_flatMap, mem_listed]
    constructor
    · rintro ⟨port, hport, hid⟩
      obtain ⟨index, hindex⟩ := List.mem_iff_getElem?.mp hport
      exact ⟨index, port, hindex, hid⟩
    · rintro ⟨index, port, hindex, hid⟩
      exact ⟨port, List.mem_iff_getElem?.mpr ⟨index, hindex⟩, hid⟩
  rw [connectionIds, mem_foldl_appendNew, hincoming, houtgoing]

end Node

namespace Graph

variable (graph : Graph)

/-- Connections listed at an output port of a node, none where it does not exist. -/
def listed (id : NodeId) (index : Nat) : List ConnectionId :=
  ((graph.node? id).map (·.listed index)).getD []

/-- The node exists and has a port at that position of that side. -/
def HasPort (port : PortRef) : Prop :=
  ∃ node, graph.node? port.node = some node ∧ port.index < node.portCount port.direction

/-- Port at which a connection of the table starts. -/
def source? (id : ConnectionId) : Option PortRef := (graph.connection? id).map (·.source)

/-- Port at which a connection of the table ends. -/
def destination? (id : ConnectionId) : Option PortRef := (graph.connection? id).map (·.destination)

/-- What feeds an input port is the start of the connection in its slot. -/
theorem inputSource?_eq (id : NodeId) (index : Nat) :
    graph.inputSource? id index = (graph.inputConnection? id index).bind graph.source? := by
  unfold inputSource? source?
  cases graph.inputConnection? id index <;> rfl

/-- The slot of an input port is read off its node. -/
theorem inputConnection?_eq (id : NodeId) (index : Nat) :
    graph.inputConnection? id index = (graph.node? id).bind (·.feed? index) := by
  cases h : graph.node? id <;> simp [inputConnection?, inputPort?, Node.feed?, h]

/-- The list of an output port is read off the port. -/
theorem listed_eq (id : NodeId) (index : Nat) :
    graph.listed id index = ((graph.outputPort? id index).map (·.connections)).getD [] := by
  cases h : graph.node? id <;> simp [listed, outputPort?, Node.listed, h]

/-- The slots of a node that exists. -/
theorem inputConnection?_of_node? {id : NodeId} {node : Node} (hn : graph.node? id = some node)
    (index : Nat) : graph.inputConnection? id index = node.feed? index := by
  rw [inputConnection?_eq, hn]
  rfl

/-- The lists of a node that exists. -/
theorem listed_of_node? {id : NodeId} {node : Node} (hn : graph.node? id = some node)
    (index : Nat) : graph.listed id index = node.listed index := by
  rw [listed, hn]
  rfl

/-- Checking a port succeeds exactly for the ports that exist. -/
theorem checkPort_eq_ok_iff (port : PortRef) : graph.checkPort port = .ok () ↔ graph.HasPort port := by
  unfold checkPort requireNode HasPort
  cases h : graph.node? port.node with
  | none => simp [bind, Except.bind]
  | some node =>
    by_cases hi : port.index < node.portCount port.direction <;>
      simp [bind, Except.bind, hi, pure, Except.pure, throw, throwThe, MonadExceptOf.throw]

/-- Requiring a node succeeds exactly with the node that is found. -/
theorem requireNode_eq_ok_iff {id : NodeId} {node : Node} :
    graph.requireNode id = .ok node ↔ graph.node? id = some node := by
  unfold requireNode
  cases h : graph.node? id <;> simp

/-- Requiring a connection succeeds exactly with the connection that is found. -/
theorem requireConnection_eq_ok_iff {id : ConnectionId} {connection : Connection} :
    graph.requireConnection id = .ok connection ↔ graph.connection? id = some connection := by
  unfold requireConnection
  cases h : graph.connection? id <;> simp

/-- An input port is free exactly when its slot is empty. -/
theorem checkFree_eq_ok_iff (port : PortRef) :
    graph.checkFree port = .ok () ↔ graph.inputConnection? port.node port.index = none := by
  unfold checkFree
  cases h : graph.inputConnection? port.node port.index <;> simp

/-- A connection may be made exactly from an existing output port to an existing free input port. -/
theorem checkConnect_eq_ok_iff (source destination : PortRef) :
    graph.checkConnect source destination = .ok () ↔
      source.direction = .output ∧ destination.direction = .input ∧ graph.HasPort source ∧
        graph.HasPort destination ∧
          graph.inputConnection? destination.node destination.index = none := by
  rw [← checkFree_eq_ok_iff, ← checkPort_eq_ok_iff, ← checkPort_eq_ok_iff]
  unfold checkConnect
  cases hs : source.direction <;> cases hd : destination.direction <;>
    simp only [PortRef.isOutput, PortRef.isInput, hs, hd, decide_true, decide_false, Bool.not_true,
      Bool.not_false, Bool.false_eq_true, if_true, if_false, reduceCtorEq, false_and, and_false,
      true_and, throw, throwThe, MonadExceptOf.throw, bind, Except.bind]
  cases graph.checkPort source <;> simp
  cases graph.checkPort destination <;> simp

variable {graph}

/-- A listed connection belongs to an output port that exists. -/
theorem hasPort_of_mem_listed {id : NodeId} {index : Nat} {connection : ConnectionId}
    (h : connection ∈ graph.listed id index) : graph.HasPort (.output id index) := by
  unfold listed at h
  cases hn : graph.node? id with
  | none => simp [hn] at h
  | some node =>
    refine ⟨node, hn, ?_⟩
    by_contra hi
    have hout : node.outputs[index]? = none := List.getElem?_eq_none (Nat.not_lt.mp hi)
    simp [hn, Node.listed, hout] at h

/-- A connection in a slot belongs to an input port that exists. -/
theorem hasPort_of_inputConnection? {id : NodeId} {index : Nat} {connection : ConnectionId}
    (h : graph.inputConnection? id index = some connection) : graph.HasPort (.input id index) := by
  rw [inputConnection?_eq] at h
  obtain ⟨node, hn, hfeed⟩ := Option.bind_eq_some_iff.mp h
  refine ⟨node, hn, ?_⟩
  by_contra hi
  have hin : node.inputs[index]? = none := List.getElem?_eq_none (Nat.not_lt.mp hi)
  simp [Node.feed?, hin] at hfeed

/-! ### Equal graphs -/

/-- Graphs are equal if all their records are. -/
theorem eq_of_records {changed : Graph} (hnodes : graph.nodes = changed.nodes)
    (hconnections : graph.connections = changed.connections) (hnames : graph.names = changed.names)
    (hnode : graph.nextNode = changed.nextNode)
    (hconnection : graph.nextConnection = changed.nextConnection) : graph = changed := by
  cases graph
  cases changed
  simp only [mk.injEq]
  exact ⟨hnodes, hconnections, hnames, hnode, hconnection⟩

/-- What a change does to other nodes than the one that is there does not matter. -/
theorem modifyNode_congr {id : NodeId} {f g : Node → Node}
    (h : ∀ node, graph.node? id = some node → f node = g node) :
    graph.modifyNode id f = graph.modifyNode id g := by
  refine eq_of_records (OrderedMap.ext (List.map_congr_left fun entry hentry => ?_)) rfl rfl rfl rfl
  by_cases hid : entry.1 = id
  · have hvalue := (graph.nodes.get?_eq_some_iff entry.1 entry.2).mpr hentry
    rw [hid] at hvalue
    simp only [hid, if_true, h entry.2 hvalue]
  · simp only [hid, if_false]

/-- A node that is changed to what it is leaves the graph as it is. -/
theorem modifyNode_eq_self {id : NodeId} {f : Node → Node}
    (h : ∀ node, graph.node? id = some node → f node = node) : graph.modifyNode id f = graph := by
  rw [modifyNode_congr (g := fun node => node) h]
  refine eq_of_records (OrderedMap.ext ?_) rfl rfl rfl rfl
  simp [modifyNode, OrderedMap.modify]

/-- Two changes of one node are one change. -/
theorem modifyNode_modifyNode (graph : Graph) (id : NodeId) (f g : Node → Node) :
    (graph.modifyNode id f).modifyNode id g = graph.modifyNode id fun node => g (f node) := by
  refine eq_of_records (OrderedMap.ext ?_) rfl rfl rfl rfl
  simp only [modifyNode, OrderedMap.modify, List.map_map]
  apply List.map_congr_left
  intro entry _
  by_cases hid : entry.1 = id
  · simp [hid]
  · simp [hid]

/-! ### Nodes -/

variable (graph)

/-- The node that a description makes. -/
def newNode (desc : NodeDesc) : Node where
  name := graph.freshName (desc.name.getD (suffixed desc.opType graph.nextNode))
  opType := desc.opType
  attributes := desc.attributes
  inputs := (List.range desc.inputs).map fun index => ⟨index, none⟩
  outputs := (List.range desc.outputs).map fun index => ⟨index, [], none⟩

/-- A new node is fed by nothing. -/
@[simp] theorem feed?_newNode (desc : NodeDesc) (index : Nat) :
    (graph.newNode desc).feed? index = none := by
  simp only [Node.feed?, newNode, List.getElem?_map]
  cases (List.range desc.inputs)[index]? <;> rfl

/-- Nothing is listed at the ports of a new node. -/
@[simp] theorem listed_newNode (desc : NodeDesc) (index : Nat) :
    (graph.newNode desc).listed index = [] := by
  simp only [Node.listed, newNode, List.getElem?_map]
  cases (List.range desc.outputs)[index]? <;> rfl

theorem node?_insertNode (desc : NodeDesc) (id : NodeId) :
    (graph.insertNode desc).node? id =
      if id = ⟨graph.nextNode⟩ then some (graph.newNode desc) else graph.node? id :=
  graph.nodes.get?_insert ⟨graph.nextNode⟩ id (graph.newNode desc)

theorem idOf?_insertNode (desc : NodeDesc) (name : String) :
    (graph.insertNode desc).idOf? name =
      if name = (graph.newNode desc).name then some ⟨graph.nextNode⟩ else graph.idOf? name :=
  graph.names.get?_insert (graph.newNode desc).name name ⟨graph.nextNode⟩

@[simp] theorem connection?_insertNode (desc : NodeDesc) (id : ConnectionId) :
    (graph.insertNode desc).connection? id = graph.connection? id := rfl

/-- A node with a new number leaves all slots as they are. -/
theorem inputConnection?_insertNode (desc : NodeDesc) (hfresh : graph.node? ⟨graph.nextNode⟩ = none)
    (id : NodeId) (index : Nat) :
    (graph.insertNode desc).inputConnection? id index = graph.inputConnection? id index := by
  rw [inputConnection?_eq, inputConnection?_eq, node?_insertNode]
  by_cases hid : id = ⟨graph.nextNode⟩
  · simp [hid, hfresh]
  · simp [hid]

/-- A node with a new number leaves all lists as they are. -/
theorem listed_insertNode (desc : NodeDesc) (hfresh : graph.node? ⟨graph.nextNode⟩ = none)
    (id : NodeId) (index : Nat) :
    (graph.insertNode desc).listed id index = graph.listed id index := by
  unfold listed
  rw [node?_insertNode]
  by_cases hid : id = ⟨graph.nextNode⟩
  · simp [hid, hfresh]
  · simp [hid]

theorem node?_modifyNode (id other : NodeId) (f : Node → Node) :
    (graph.modifyNode id f).node? other =
      if other = id then (graph.node? other).map f else graph.node? other :=
  graph.nodes.get?_modify id other f

@[simp] theorem connection?_modifyNode (id : NodeId) (f : Node → Node) (other : ConnectionId) :
    (graph.modifyNode id f).connection? other = graph.connection? other := rfl

@[simp] theorem idOf?_modifyNode (id : NodeId) (f : Node → Node) (name : String) :
    (graph.modifyNode id f).idOf? name = graph.idOf? name := rfl

/-- A change of a node that keeps its slots keeps the slots of the graph. -/
theorem inputConnection?_modifyNode {f : Node → Node}
    (hf : ∀ node index, (f node).feed? index = node.feed? index) (id other : NodeId) (index : Nat) :
    (graph.modifyNode id f).inputConnection? other index = graph.inputConnection? other index := by
  rw [inputConnection?_eq, inputConnection?_eq, node?_modifyNode]
  split
  · cases graph.node? other <;> simp [hf]
  · rfl

/-- A change of a node that keeps its lists keeps the lists of the graph. -/
theorem listed_modifyNode {f : Node → Node}
    (hf : ∀ node index, (f node).listed index = node.listed index) (id other : NodeId) (index : Nat) :
    (graph.modifyNode id f).listed other index = graph.listed other index := by
  unfold listed
  rw [node?_modifyNode]
  split
  · cases graph.node? other <;> simp [hf]
  · rfl

theorem node?_eraseNode (id other : NodeId) (name : String) :
    (graph.eraseNode id name).node? other = if other = id then none else graph.node? other :=
  graph.nodes.get?_erase id other

theorem idOf?_eraseNode (id : NodeId) (name other : String) :
    (graph.eraseNode id name).idOf? other = if other = name then none else graph.idOf? other :=
  graph.names.get?_erase name other

@[simp] theorem connection?_eraseNode (id : NodeId) (name : String) (other : ConnectionId) :
    (graph.eraseNode id name).connection? other = graph.connection? other := rfl

theorem inputConnection?_eraseNode (id other : NodeId) (name : String) (index : Nat) :
    (graph.eraseNode id name).inputConnection? other index =
      if other = id then none else graph.inputConnection? other index := by
  rw [inputConnection?_eq, inputConnection?_eq, node?_eraseNode]
  split <;> rfl

theorem listed_eraseNode (id other : NodeId) (name : String) (index : Nat) :
    (graph.eraseNode id name).listed other index =
      if other = id then [] else graph.listed other index := by
  unfold listed
  rw [node?_eraseNode]
  split <;> rfl

theorem node?_rename (id other : NodeId) (old new : String) :
    (graph.rename id old new).node? other =
      if other = id then (graph.node? other).map ({ · with name := new }) else graph.node? other :=
  graph.node?_modifyNode id other _

theorem idOf?_rename (id : NodeId) (old new name : String) :
    (graph.rename id old new).idOf? name =
      if name = new then some id else if name = old then none else graph.idOf? name := by
  unfold idOf? rename
  rw [OrderedMap.get?_insert, OrderedMap.get?_erase]

@[simp] theorem connection?_rename (id : NodeId) (old new : String) (other : ConnectionId) :
    (graph.rename id old new).connection? other = graph.connection? other := rfl

@[simp] theorem inputConnection?_rename (id other : NodeId) (old new : String) (index : Nat) :
    (graph.rename id old new).inputConnection? other index = graph.inputConnection? other index :=
  graph.inputConnection?_modifyNode (f := ({ · with name := new })) (fun _ _ => rfl) id other index

@[simp] theorem listed_rename (id other : NodeId) (old new : String) (index : Nat) :
    (graph.rename id old new).listed other index = graph.listed other index :=
  graph.listed_modifyNode (f := ({ · with name := new })) (fun _ _ => rfl) id other index

/-! ### Ports -/

theorem inputConnection?_modifyInput (port : PortRef) (f : InputPort → InputPort) (id : NodeId)
    (index : Nat) :
    (graph.modifyInput port f).inputConnection? id index =
      if id = port.node ∧ index = port.index then
        (graph.inputPort? id index).bind fun input => (f input).connection
      else graph.inputConnection? id index := by
  rw [inputConnection?_eq, inputConnection?_eq]
  unfold modifyInput inputPort?
  rw [node?_modifyNode]
  by_cases hid : id = port.node
  · subst hid
    cases hn : graph.node? port.node with
    | none => simp
    | some node =>
      by_cases hi : index = port.index
      · subst hi
        cases hp : node.inputs[port.index]? <;> simp [Node.feed?, hp]
      · simp [hi, Node.feed?, Ne.symm hi]
  · simp [hid]

@[simp] theorem listed_modifyInput (port : PortRef) (f : InputPort → InputPort) (id : NodeId)
    (index : Nat) : (graph.modifyInput port f).listed id index = graph.listed id index :=
  graph.listed_modifyNode
    (f := fun node => { node with inputs := node.inputs.modify port.index f })
    (fun _ _ => rfl) port.node id index

theorem listed_modifyOutput (port : PortRef) (f : OutputPort → OutputPort) (id : NodeId)
    (index : Nat) :
    (graph.modifyOutput port f).listed id index =
      if id = port.node ∧ index = port.index then
        ((graph.outputPort? id index).map fun output => (f output).connections).getD []
      else graph.listed id index := by
  unfold modifyOutput outputPort? listed
  rw [node?_modifyNode]
  by_cases hid : id = port.node
  · subst hid
    cases hn : graph.node? port.node with
    | none => simp
    | some node =>
      by_cases hi : index = port.index
      · subst hi
        cases hp : node.outputs[port.index]? <;> simp [Node.listed, hp]
      · simp [hi, Node.listed, Ne.symm hi]
  · simp [hid]

@[simp] theorem inputConnection?_modifyOutput (port : PortRef) (f : OutputPort → OutputPort)
    (id : NodeId) (index : Nat) :
    (graph.modifyOutput port f).inputConnection? id index = graph.inputConnection? id index :=
  graph.inputConnection?_modifyNode
    (f := fun node => { node with outputs := node.outputs.modify port.index f })
    (fun _ _ => rfl) port.node id index

variable {graph}

/-- A filled or emptied slot of an existing input port. -/
theorem inputConnection?_setFeed {port : PortRef} (hport : graph.HasPort port)
    (hdir : port.direction = .input) (feed : Option ConnectionId) (id : NodeId) (index : Nat) :
    (graph.setFeed port feed).inputConnection? id index =
      if id = port.node ∧ index = port.index then feed else graph.inputConnection? id index := by
  unfold setFeed
  rw [inputConnection?_modifyInput]
  obtain ⟨node, hn, hi⟩ := hport
  rw [hdir] at hi
  split
  · rename_i h
    obtain ⟨rfl, rfl⟩ := h
    simp [inputPort?, hn, List.getElem?_eq_getElem (show port.index < node.inputs.length from hi)]
  · rfl

/-- A connection attached to an existing output port goes to the end of its list. -/
theorem listed_attachSource {port : PortRef} (hport : graph.HasPort port)
    (hdir : port.direction = .output) (connection : ConnectionId) (id : NodeId) (index : Nat) :
    (graph.attachSource port connection).listed id index =
      if id = port.node ∧ index = port.index then graph.listed id index ++ [connection]
      else graph.listed id index := by
  unfold attachSource
  rw [listed_modifyOutput]
  obtain ⟨node, hn, hi⟩ := hport
  rw [hdir] at hi
  split
  · rename_i h
    obtain ⟨rfl, rfl⟩ := h
    simp [outputPort?, listed, Node.listed, hn,
      List.getElem?_eq_getElem (show port.index < node.outputs.length from hi)]
  · rfl

/-- A detached connection is filtered out of the list. -/
theorem listed_detachSource (port : PortRef) (connection : ConnectionId) (id : NodeId)
    (index : Nat) :
    (graph.detachSource port connection).listed id index =
      if id = port.node ∧ index = port.index then (graph.listed id index).filter (· ≠ connection)
      else graph.listed id index := by
  unfold detachSource
  rw [listed_modifyOutput, listed_eq]
  split
  · cases graph.outputPort? id index <;> simp
  · rfl

/-- A change of a node that keeps its port counts keeps the ports of the graph. -/
theorem hasPort_modifyNode {f : Node → Node}
    (hf : ∀ node direction, (f node).portCount direction = node.portCount direction) (id : NodeId)
    (port : PortRef) : (graph.modifyNode id f).HasPort port ↔ graph.HasPort port := by
  unfold HasPort
  rw [node?_modifyNode]
  by_cases hid : port.node = id
  · cases hn : graph.node? port.node <;> simp [hid, hf]
  · simp [hid]

@[simp] theorem hasPort_modifyOutput (port other : PortRef) (f : OutputPort → OutputPort) :
    (graph.modifyOutput port f).HasPort other ↔ graph.HasPort other :=
  hasPort_modifyNode (fun _ direction => by cases direction <;> simp [Node.portCount]) port.node other

@[simp] theorem hasPort_setFeed (port other : PortRef) (feed : Option ConnectionId) :
    (graph.setFeed port feed).HasPort other ↔ graph.HasPort other :=
  hasPort_modifyNode (fun _ direction => by cases direction <;> simp [Node.portCount]) port.node other

@[simp] theorem hasPort_attachSource (port other : PortRef) (id : ConnectionId) :
    (graph.attachSource port id).HasPort other ↔ graph.HasPort other :=
  hasPort_modifyOutput port other _

@[simp] theorem hasPort_detachSource (port other : PortRef) (id : ConnectionId) :
    (graph.detachSource port id).HasPort other ↔ graph.HasPort other :=
  hasPort_modifyOutput port other _

@[simp] theorem listed_setFeed (port : PortRef) (feed : Option ConnectionId) (id : NodeId)
    (index : Nat) : (graph.setFeed port feed).listed id index = graph.listed id index :=
  graph.listed_modifyInput port _ id index

@[simp] theorem inputConnection?_attachSource (port : PortRef) (connection : ConnectionId)
    (id : NodeId) (index : Nat) :
    (graph.attachSource port connection).inputConnection? id index =
      graph.inputConnection? id index :=
  graph.inputConnection?_modifyOutput port _ id index

@[simp] theorem inputConnection?_detachSource (port : PortRef) (connection : ConnectionId)
    (id : NodeId) (index : Nat) :
    (graph.detachSource port connection).inputConnection? id index =
      graph.inputConnection? id index :=
  graph.inputConnection?_modifyOutput port _ id index

/-! ### Connections -/

variable {source destination old new : PortRef} {id : ConnectionId}

theorem connection?_insertConnection (other : ConnectionId) :
    (graph.insertConnection source destination).connection? other =
      if other = ⟨graph.nextConnection⟩ then some ⟨source, destination⟩
      else graph.connection? other :=
  graph.connections.get?_insert ⟨graph.nextConnection⟩ other ⟨source, destination⟩

theorem source?_insertConnection (other : ConnectionId) :
    (graph.insertConnection source destination).source? other =
      if other = ⟨graph.nextConnection⟩ then some source else graph.source? other := by
  unfold source?
  rw [connection?_insertConnection]
  split <;> rfl

theorem destination?_insertConnection (other : ConnectionId) :
    (graph.insertConnection source destination).destination? other =
      if other = ⟨graph.nextConnection⟩ then some destination else graph.destination? other := by
  unfold destination?
  rw [connection?_insertConnection]
  split <;> rfl

/-- A new connection fills the slot of its destination. -/
theorem inputConnection?_insertConnection (hport : graph.HasPort destination)
    (hdir : destination.direction = .input) (node : NodeId) (index : Nat) :
    (graph.insertConnection source destination).inputConnection? node index =
      if node = destination.node ∧ index = destination.index then some ⟨graph.nextConnection⟩
      else graph.inputConnection? node index := by
  change ((graph.attachSource source _).setFeed destination _).inputConnection? node index = _
  rw [inputConnection?_setFeed ((hasPort_attachSource source destination _).mpr hport) hdir,
    inputConnection?_attachSource]

/-- A new connection is the last one in the list of its source. -/
theorem listed_insertConnection (hport : graph.HasPort source) (hdir : source.direction = .output)
    (node : NodeId) (index : Nat) :
    (graph.insertConnection source destination).listed node index =
      if node = source.node ∧ index = source.index then
        graph.listed node index ++ [⟨graph.nextConnection⟩]
      else graph.listed node index := by
  change ((graph.attachSource source _).setFeed destination _).listed node index = _
  rw [listed_setFeed, listed_attachSource hport hdir]

theorem connection?_eraseConnection (connection : Connection) (other : ConnectionId) :
    (graph.eraseConnection id connection).connection? other =
      if other = id then none else graph.connection? other :=
  graph.connections.get?_erase id other

theorem source?_eraseConnection (connection : Connection) (other : ConnectionId) :
    (graph.eraseConnection id connection).source? other =
      if other = id then none else graph.source? other := by
  unfold source?
  rw [connection?_eraseConnection]
  split <;> rfl

theorem destination?_eraseConnection (connection : Connection) (other : ConnectionId) :
    (graph.eraseConnection id connection).destination? other =
      if other = id then none else graph.destination? other := by
  unfold destination?
  rw [connection?_eraseConnection]
  split <;> rfl

/-- A removed connection leaves an empty slot behind. -/
theorem inputConnection?_eraseConnection {connection : Connection}
    (hport : graph.HasPort connection.destination)
    (hdir : connection.destination.direction = .input) (node : NodeId) (index : Nat) :
    (graph.eraseConnection id connection).inputConnection? node index =
      if node = connection.destination.node ∧ index = connection.destination.index then none
      else graph.inputConnection? node index := by
  change ((graph.detachSource connection.source id).setFeed connection.destination
    none).inputConnection? node index = _
  rw [inputConnection?_setFeed ((hasPort_detachSource connection.source _ id).mpr hport) hdir,
    inputConnection?_detachSource]

/-- A removed connection is filtered out of the list of its source. -/
theorem listed_eraseConnection (connection : Connection) (node : NodeId) (index : Nat) :
    (graph.eraseConnection id connection).listed node index =
      if node = connection.source.node ∧ index = connection.source.index then
        (graph.listed node index).filter (· ≠ id)
      else graph.listed node index := by
  change ((graph.detachSource connection.source id).setFeed connection.destination
    none).listed node index = _
  rw [listed_setFeed, listed_detachSource]

theorem connection?_moveDestination (other : ConnectionId) :
    (graph.moveDestination id old new).connection? other =
      if other = id then (graph.connection? other).map ({ · with destination := new })
      else graph.connection? other :=
  graph.connections.get?_modify id other _

@[simp] theorem source?_moveDestination (other : ConnectionId) :
    (graph.moveDestination id old new).source? other = graph.source? other := by
  unfold source?
  rw [connection?_moveDestination]
  split
  · cases graph.connection? other <;> rfl
  · rfl

theorem destination?_moveDestination (other : ConnectionId) :
    (graph.moveDestination id old new).destination? other =
      if other = id then (graph.destination? other).map fun _ => new
      else graph.destination? other := by
  unfold destination?
  rw [connection?_moveDestination]
  split
  · cases graph.connection? other <;> rfl
  · rfl

/-- A connection that moves to another input port leaves the old slot and fills the new one. -/
theorem inputConnection?_moveDestination (hold : graph.HasPort old) (hnew : graph.HasPort new)
    (hdirOld : old.direction = .input) (hdirNew : new.direction = .input) (node : NodeId)
    (index : Nat) :
    (graph.moveDestination id old new).inputConnection? node index =
      if node = new.node ∧ index = new.index then some id
      else if node = old.node ∧ index = old.index then none
      else graph.inputConnection? node index := by
  change ((graph.setFeed old none).setFeed new (some id)).inputConnection? node index = _
  rw [inputConnection?_setFeed ((hasPort_setFeed old new none).mpr hnew) hdirNew,
    inputConnection?_setFeed hold hdirOld]

@[simp] theorem listed_moveDestination (node : NodeId) (index : Nat) :
    (graph.moveDestination id old new).listed node index = graph.listed node index := by
  change ((graph.setFeed old none).setFeed new (some id)).listed node index = _
  rw [listed_setFeed, listed_setFeed]

theorem connection?_moveSource (other : ConnectionId) :
    (graph.moveSource id old new).connection? other =
      if other = id then (graph.connection? other).map ({ · with source := new })
      else graph.connection? other :=
  graph.connections.get?_modify id other _

theorem source?_moveSource (other : ConnectionId) :
    (graph.moveSource id old new).source? other =
      if other = id then (graph.source? other).map fun _ => new else graph.source? other := by
  unfold source?
  rw [connection?_moveSource]
  split
  · cases graph.connection? other <;> rfl
  · rfl

@[simp] theorem destination?_moveSource (other : ConnectionId) :
    (graph.moveSource id old new).destination? other = graph.destination? other := by
  unfold destination?
  rw [connection?_moveSource]
  split
  · cases graph.connection? other <;> rfl
  · rfl

@[simp] theorem inputConnection?_moveSource (node : NodeId) (index : Nat) :
    (graph.moveSource id old new).inputConnection? node index =
      graph.inputConnection? node index := by
  change ((graph.detachSource old id).attachSource new id).inputConnection? node index = _
  rw [inputConnection?_attachSource, inputConnection?_detachSource]

/-- A connection that moves to another output port is filtered out of the old list and appended
to the new one. -/
theorem listed_moveSource (hnew : graph.HasPort new) (hdir : new.direction = .output)
    (hne : ¬ (new.node = old.node ∧ new.index = old.index)) (node : NodeId) (index : Nat) :
    (graph.moveSource id old new).listed node index =
      if node = new.node ∧ index = new.index then graph.listed node index ++ [id]
      else if node = old.node ∧ index = old.index then (graph.listed node index).filter (· ≠ id)
      else graph.listed node index := by
  change ((graph.detachSource old id).attachSource new id).listed node index = _
  rw [listed_attachSource ((hasPort_detachSource old new id).mpr hnew) hdir, listed_detachSource]
  by_cases hnode : node = new.node ∧ index = new.index
  · have hother : ¬ (node = old.node ∧ index = old.index) := by
      rw [hnode.1, hnode.2]
      exact hne
    simp only [if_pos hnode, if_neg hother]
  · simp only [if_neg hnode]

end Graph

end OpGraph
