import OpGraph.Pass.OutputMarker
import OpGraph.Proofs.Edit.Operation

/-!
# Graphs of which less is known

To hide a node is to forget what is known about its outputs. Nodes, ports, names and connections
stay as they are, so look-ups that do not ask for knowledge find the same, and changes that do
not touch knowledge lead from the graph with less knowledge to the result with less knowledge.
-/

namespace OpGraph

namespace OrderedMap

variable {κ α : Type}

/-- Change every value, depending on its key. -/
def mapValues (m : OrderedMap κ α) (f : κ → α → α) : OrderedMap κ α where
  toList := m.toList.map fun entry => (entry.1, f entry.1 entry.2)
  nodup_keys := by
    rw [List.map_map]
    exact m.nodup_keys

@[simp] theorem keys_mapValues (m : OrderedMap κ α) (f : κ → α → α) :
    (m.mapValues f).keys = m.keys := by
  simp only [keys, mapValues, List.map_map]
  rfl

/-- Values that do not change make the same map. -/
theorem mapValues_eq_self {m : OrderedMap κ α} {f : κ → α → α}
    (h : ∀ entry ∈ m.toList, f entry.1 entry.2 = entry.2) : m.mapValues f = m := by
  apply ext
  simp only [mapValues]
  conv_rhs => rw [← m.toList.map_id]
  exact List.map_congr_left fun entry hentry => by rw [h entry hentry]; rfl

variable [DecidableEq κ]

theorem get?_mapValues (m : OrderedMap κ α) (f : κ → α → α) (key : κ) :
    (m.mapValues f).get? key = (m.get? key).map (f key) := by
  apply Option.ext
  intro value
  rw [get?_eq_some_iff, Option.map_eq_some_iff]
  simp only [mapValues, List.mem_map, Prod.mk.injEq]
  constructor
  · rintro ⟨entry, hentry, rfl, rfl⟩
    exact ⟨entry.2, (m.get?_eq_some_iff _ _).mpr hentry, rfl⟩
  · rintro ⟨old, hold, rfl⟩
    exact ⟨(key, old), (m.get?_eq_some_iff _ _).mp hold, rfl, rfl⟩

@[simp] theorem contains_mapValues (m : OrderedMap κ α) (f : κ → α → α) (key : κ) :
    (m.mapValues f).contains key = m.contains key := by
  rw [contains, contains, keys_mapValues]

/-- A change of all values passes a change of one that commutes with it. -/
theorem mapValues_modify (m : OrderedMap κ α) {f : κ → α → α} {g h : α → α} {key : κ}
    (hg : ∀ value, f key (g value) = h (f key value)) :
    (m.modify key g).mapValues f = (m.mapValues f).modify key h := by
  apply ext
  simp only [mapValues, modify, List.map_map]
  apply List.map_congr_left
  intro entry _
  simp only [Function.comp]
  by_cases hkey : entry.1 = key
  · simp only [hkey, if_true, hg]
  · simp only [hkey, if_false]

theorem mapValues_insert (m : OrderedMap κ α) (f : κ → α → α) (key : κ) (value : α) :
    (m.insert key value).mapValues f = (m.mapValues f).insert key (f key value) := by
  by_cases hfound : m.contains key = true
  · unfold insert
    rw [dif_pos hfound, dif_pos (by rwa [contains_mapValues])]
    exact m.mapValues_modify fun _ => rfl
  · unfold insert
    rw [dif_neg hfound, dif_neg (by rwa [contains_mapValues])]
    apply ext
    simp [mapValues]

theorem mapValues_erase (m : OrderedMap κ α) (f : κ → α → α) (key : κ) :
    (m.erase key).mapValues f = (m.mapValues f).erase key := by
  apply ext
  simp only [mapValues, erase, List.filter_map]
  rfl

end OrderedMap

namespace Node

/-- The node when nothing is known about its outputs. -/
def forget (node : Node) : Node :=
  { node with outputs := node.outputs.map ({ · with info := none }) }

/-- The node, when nothing is known about its outputs if it is hidden. -/
def forgetIf (hidden : Bool) (node : Node) : Node := if hidden then node.forget else node

@[simp] theorem name_forgetIf (hidden : Bool) (node : Node) :
    (node.forgetIf hidden).name = node.name := by
  cases hidden <;> rfl

variable (node : Node)

@[simp] theorem length_outputs_forget : node.forget.outputs.length = node.outputs.length := by
  simp [forget]

@[simp] theorem portCount_forget (direction : Direction) :
    node.forget.portCount direction = node.portCount direction := by
  cases direction <;> simp [portCount, forget]

@[simp] theorem disconnectedOutputs_forget :
    node.forget.disconnectedOutputs = node.disconnectedOutputs := by
  simp only [disconnectedOutputs, forget, List.filter_map, List.map_map]
  rfl

@[simp] theorem usedOutputs_forget : node.forget.usedOutputs = node.usedOutputs := by
  simp only [usedOutputs, forget, List.countP_map]
  rfl

@[simp] theorem outgoing_forget :
    node.forget.outputs.flatMap (·.connections) = node.outputs.flatMap (·.connections) := by
  simp [forget, List.flatMap_map]

@[simp] theorem connectionIds_forget : node.forget.connectionIds = node.connectionIds := by
  simp only [connectionIds, outgoing_forget]
  rfl

/-- A change of an output port that commutes with forgetting. -/
theorem forget_modifyOutput {f : OutputPort → OutputPort}
    (hf : ∀ port, { f port with info := none } = f { port with info := none }) (index : Nat) :
    { node with outputs := node.outputs.modify index f }.forget =
      { node.forget with outputs := node.forget.outputs.modify index f } := by
  have hports := map_modify_comm (g := fun port : OutputPort => { port with info := none })
    (f := f) (h := f) hf node.outputs index
  simp only [forget, hports]

/-- What is said about a port is forgotten again. -/
theorem forget_annotate (index : Nat) (info : TensorInfo) :
    { node with outputs := node.outputs.modify index ({ · with info := some info }) }.forget =
      node.forget := by
  have hports := map_modify_of_eq (g := fun port : OutputPort => { port with info := none })
    (f := ({ · with info := some info })) (fun _ => rfl) node.outputs index
  simp only [forget, hports]

end Node

namespace Graph

/-- The graph when nothing is known about the outputs of the hidden nodes. -/
def hide (hidden : NodeId → Bool) (graph : Graph) : Graph :=
  { graph with nodes := graph.nodes.mapValues fun id => Node.forgetIf (hidden id) }

/-- The graph when nothing is known about the outputs of nodes with numbers below the bound. -/
def hideBelow (bound : Nat) (graph : Graph) : Graph := graph.hide fun id => decide (id.index < bound)

variable {graph : Graph} {hidden : NodeId → Bool} {id : NodeId} {port : PortRef}

theorem node?_hide (hidden : NodeId → Bool) (graph : Graph) (id : NodeId) :
    (graph.hide hidden).node? id = (graph.node? id).map (Node.forgetIf (hidden id)) :=
  graph.nodes.get?_mapValues (fun id => Node.forgetIf (hidden id)) id

theorem node?_hide_of_some {node : Node} (hn : graph.node? id = some node) :
    (graph.hide hidden).node? id = some (node.forgetIf (hidden id)) := by
  rw [node?_hide, hn]
  rfl

/-- Hiding leaves everything of a node but what is known about its outputs. -/
theorem bare?_hide (hidden : NodeId → Bool) (graph : Graph) (id : NodeId) :
    (graph.hide hidden).bare? id = (graph.bare? id).map (Node.forgetIf (hidden id)) := by
  unfold bare?
  rw [node?_hide, Option.map_map, Option.map_map]
  congr 1
  funext node
  simp only [Function.comp_apply, Node.forgetIf]
  split
  · simp [Node.forget, Node.bare, Function.comp_def]
  · rfl

@[simp] theorem isSome_node?_hide :
    ((graph.hide hidden).node? id).isSome = (graph.node? id).isSome := by
  rw [node?_hide, Option.isSome_map]

@[simp] theorem connection?_hide (connection : ConnectionId) :
    (graph.hide hidden).connection? connection = graph.connection? connection := rfl

@[simp] theorem idOf?_hide (name : String) :
    (graph.hide hidden).idOf? name = graph.idOf? name := rfl

/-- Hiding leaves the slots of all nodes alone. -/
@[simp] theorem inputConnection?_hide (id : NodeId) (index : Nat) :
    (graph.hide hidden).inputConnection? id index = graph.inputConnection? id index := by
  rw [inputConnection?_eq, inputConnection?_eq, node?_hide]
  cases graph.node? id with
  | none => rfl
  | some node => cases hidden id <;> simp [Node.feed?, Node.forgetIf, Node.forget]

@[simp] theorem inputSource?_hide (id : NodeId) (index : Nat) :
    (graph.hide hidden).inputSource? id index = graph.inputSource? id index := by
  rw [inputSource?_eq, inputSource?_eq, inputConnection?_hide]
  rfl

@[simp] theorem hasPort_hide : (graph.hide hidden).HasPort port ↔ graph.HasPort port := by
  unfold HasPort
  rw [node?_hide]
  cases graph.node? port.node with
  | none => simp
  | some node => cases hidden port.node <;> simp [Node.forgetIf]

/-- Nothing is known about the outputs of a hidden node, and the same as before of the others. -/
theorem outputInfo?_hide (port : PortRef) :
    (graph.hide hidden).outputInfo? port =
      if hidden port.node then none else graph.outputInfo? port := by
  unfold outputInfo? outputPort?
  rw [node?_hide]
  cases graph.node? port.node with
  | none => simp
  | some node =>
    cases hid : hidden port.node with
    | true => cases hport : node.outputs[port.index]? <;> simp [Node.forgetIf, Node.forget, hport]
    | false => simp [Node.forgetIf]

/-! ### After a change -/

/-- Hiding passes a change of a node that becomes another one of the node after hiding. -/
theorem hide_modifyNode_of {f g : Node → Node}
    (hf : ∀ node, (f node).forgetIf (hidden id) = g (node.forgetIf (hidden id))) :
    (graph.modifyNode id f).hide hidden = (graph.hide hidden).modifyNode id g := by
  have hnodes := graph.nodes.mapValues_modify (f := fun id => Node.forgetIf (hidden id)) hf
  exact eq_of_records hnodes rfl rfl rfl rfl

/-- Hiding passes a change of a node that commutes with forgetting. -/
theorem hide_modifyNode {f : Node → Node} (hf : ∀ node, (f node).forget = f node.forget) :
    (graph.modifyNode id f).hide hidden = (graph.hide hidden).modifyNode id f :=
  hide_modifyNode_of fun node => by
    cases hidden id
    · rfl
    · exact hf node

theorem hide_modifyOutput {f : OutputPort → OutputPort}
    (hf : ∀ port, { f port with info := none } = f { port with info := none }) :
    (graph.modifyOutput port f).hide hidden = (graph.hide hidden).modifyOutput port f :=
  hide_modifyNode fun node => node.forget_modifyOutput hf port.index

/-- What is said about a hidden node is hidden. -/
theorem hide_annotate_of_hidden (info : TensorInfo) (hid : hidden port.node = true) :
    (graph.modifyOutput port ({ · with info := some info })).hide hidden = graph.hide hidden := by
  have hchanged : (graph.modifyOutput port ({ · with info := some info })).hide hidden =
      (graph.hide hidden).modifyNode port.node fun node => node :=
    hide_modifyNode_of fun node => by
      rw [hid]
      exact node.forget_annotate port.index info
  rw [hchanged]
  exact modifyNode_eq_self fun _ _ => rfl

/-- What is said about a node that is not hidden can be said after hiding. -/
theorem hide_annotate_of_visible (info : TensorInfo) (hid : hidden port.node = false) :
    (graph.modifyOutput port ({ · with info := some info })).hide hidden =
      (graph.hide hidden).modifyOutput port ({ · with info := some info }) :=
  hide_modifyNode_of fun node => by
    rw [hid]
    rfl

theorem hide_setFeed (feed : Option ConnectionId) :
    (graph.setFeed port feed).hide hidden = (graph.hide hidden).setFeed port feed :=
  hide_modifyNode (f := fun node =>
    { node with inputs := node.inputs.modify port.index ({ · with connection := feed }) })
    fun _ => rfl

theorem hide_attachSource (connection : ConnectionId) :
    (graph.attachSource port connection).hide hidden =
      (graph.hide hidden).attachSource port connection :=
  hide_modifyOutput fun _ => rfl

theorem hide_detachSource (connection : ConnectionId) :
    (graph.detachSource port connection).hide hidden =
      (graph.hide hidden).detachSource port connection :=
  hide_modifyOutput fun _ => rfl

theorem hide_insertConnection (source destination : PortRef) :
    (graph.insertConnection source destination).hide hidden =
      (graph.hide hidden).insertConnection source destination := by
  have hlinked : ((graph.attachSource source ⟨graph.nextConnection⟩).setFeed destination
      (some ⟨graph.nextConnection⟩)).hide hidden =
        ((graph.hide hidden).attachSource source ⟨graph.nextConnection⟩).setFeed destination
          (some ⟨graph.nextConnection⟩) := by
    rw [hide_setFeed, hide_attachSource]
  have hnodes := congrArg Graph.nodes hlinked
  exact eq_of_records hnodes rfl rfl rfl rfl

theorem hide_eraseConnection (connection : ConnectionId) (ends : Connection) :
    (graph.eraseConnection connection ends).hide hidden =
      (graph.hide hidden).eraseConnection connection ends := by
  unfold eraseConnection
  rw [hide_setFeed, hide_detachSource]
  rfl

theorem hide_moveSource (connection : ConnectionId) (old new : PortRef) :
    (graph.moveSource connection old new).hide hidden =
      (graph.hide hidden).moveSource connection old new := by
  have hmoved : ((graph.detachSource old connection).attachSource new connection).hide hidden =
      ((graph.hide hidden).detachSource old connection).attachSource new connection := by
    rw [hide_attachSource, hide_detachSource]
  have hnodes := congrArg Graph.nodes hmoved
  exact eq_of_records hnodes rfl rfl rfl rfl

theorem hide_eraseNode (name : String) :
    (graph.eraseNode id name).hide hidden = (graph.hide hidden).eraseNode id name := by
  have hnodes := graph.nodes.mapValues_erase (fun id => Node.forgetIf (hidden id)) id
  exact eq_of_records hnodes rfl rfl rfl rfl

theorem hide_rename (old new : String) :
    (graph.rename id old new).hide hidden = (graph.hide hidden).rename id old new := by
  have hnamed : (graph.modifyNode id ({ · with name := new })).hide hidden =
      (graph.hide hidden).modifyNode id ({ · with name := new }) := hide_modifyNode fun _ => rfl
  have hnodes := congrArg Graph.nodes hnamed
  exact eq_of_records hnodes rfl rfl rfl rfl

theorem hide_insertNode (desc : NodeDesc) :
    (graph.insertNode desc).hide hidden = (graph.hide hidden).insertNode desc := by
  have hnew : (graph.newNode desc).forgetIf (hidden ⟨graph.nextNode⟩) = graph.newNode desc := by
    simp [Node.forgetIf, Node.forget, newNode, Function.comp_def]
  have hnodes := graph.nodes.mapValues_insert (fun id => Node.forgetIf (hidden id))
    ⟨graph.nextNode⟩ (graph.newNode desc)
  rw [hnew] at hnodes
  exact eq_of_records hnodes rfl rfl rfl rfl

end Graph

end OpGraph
