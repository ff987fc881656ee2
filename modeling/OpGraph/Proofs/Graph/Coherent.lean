import OpGraph.Proofs.Graph.FreshName
import OpGraph.Proofs.Graph.Linked

/-!
# Coherent graphs

The records of a coherent graph agree: the three records of each connection, the names of the
nodes and the index of names, the numbers of ports and their positions. Nodes and connections
stand in the order of their numbers, all of which lie below the next one to be given out. Every
single change keeps a graph coherent under the condition that its edit checks.
-/

namespace OpGraph

/-- Every port of the node carries its own position. -/
def Node.Indexed (node : Node) : Prop :=
  (∀ index (port : InputPort), node.inputs[index]? = some port → port.index = index) ∧
    ∀ index (port : OutputPort), node.outputs[index]? = some port → port.index = index

/-- A port is counted among the open ones exactly if it is an output port that lists nothing. -/
theorem Node.Indexed.mem_disconnectedOutputs_iff {node : Node} (h : node.Indexed) {index : Nat} :
    index ∈ node.disconnectedOutputs ↔
      ∃ port, node.outputs[index]? = some port ∧ port.connections = [] := by
  simp only [disconnectedOutputs, List.mem_map, List.mem_filter, OutputPort.isDisconnected,
    List.isEmpty_iff]
  constructor
  · rintro ⟨port, ⟨hport, hopen⟩, rfl⟩
    obtain ⟨position, hposition⟩ := List.mem_iff_getElem?.mp hport
    rw [h.2 position port hposition]
    exact ⟨port, hposition, hopen⟩
  · rintro ⟨port, hport, hopen⟩
    exact ⟨port, ⟨List.mem_of_getElem? hport, hopen⟩, h.2 index port hport⟩

/-- The entries stand in the order of their numbers, all of them below a bound. -/
def OrderedMap.Counted {κ α : Type} (number : κ → Nat) (bound : Nat) (m : OrderedMap κ α) : Prop :=
  (m.keys.map number).Pairwise (· < ·) ∧ ∀ key ∈ m.keys, number key < bound

namespace OrderedMap.Counted

variable {κ α : Type} [DecidableEq κ] {number : κ → Nat} {bound : Nat} {m : OrderedMap κ α}

/-- A key whose number is not below the bound has no entry. -/
theorem get?_eq_none (h : m.Counted number bound) {key : κ} (hkey : bound ≤ number key) :
    m.get? key = none := by
  by_contra hfound
  have hmem := (m.mem_keys_iff key).mpr (Option.isSome_iff_ne_none.mpr hfound)
  exact absurd (h.2 key hmem) (Nat.not_lt.mpr hkey)

/-- A change of values keeps the order of the entries. -/
theorem modify (h : m.Counted number bound) (key : κ) (f : α → α) :
    (m.modify key f).Counted number bound := by
  unfold Counted
  rw [keys_modify]
  exact h

/-- A removal keeps the order of the other entries. -/
theorem erase (h : m.Counted number bound) (key : κ) : (m.erase key).Counted number bound := by
  unfold Counted
  rw [keys_erase]
  exact ⟨h.1.sublist (List.filter_sublist.map number), fun other hmem =>
    h.2 other (List.mem_of_mem_filter hmem)⟩

/-- The entry that gets the next number stands in its place at the end. -/
theorem insert (h : m.Counted number bound) {key : κ} (hkey : number key = bound) (value : α) :
    (m.insert key value).Counted number (bound + 1) := by
  have hfree : m.contains key = false :=
    (m.contains_eq_false_iff key).mpr (h.get?_eq_none (Nat.le_of_eq hkey.symm))
  unfold Counted
  rw [keys_insert, hfree]
  simp only [Bool.false_eq_true, if_false, List.map_append, List.map_cons, List.map_nil]
  constructor
  · refine List.pairwise_append.mpr ⟨h.1, List.pairwise_singleton _ _, ?_⟩
    intro a ha b hb
    obtain ⟨other, hother, rfl⟩ := List.mem_map.mp ha
    rw [List.mem_singleton.mp hb, hkey]
    exact h.2 other hother
  · intro other hother
    rcases List.mem_append.mp hother with hold | hnew
    · exact Nat.lt_succ_of_lt (h.2 other hold)
    · rw [List.mem_singleton.mp hnew, hkey]
      exact Nat.lt_succ_self bound

end OrderedMap.Counted

namespace Graph

variable {graph : Graph} {id : NodeId} {connection : ConnectionId} {ends : Connection}
  {port : PortRef}

/-- Name of a node that exists. -/
def nameOf? (graph : Graph) (id : NodeId) : Option String := (graph.node? id).map (·.name)

/-- Nodes are registered under their names, number their ports and stand in order. -/
structure Registered (graph : Graph) : Prop where
  /-- The index of names and the nodes give each other. -/
  named : ∀ name id, graph.idOf? name = some id ↔ graph.nameOf? id = some name
  /-- Every port carries its position. -/
  indexed : ∀ id node, graph.node? id = some node → node.Indexed
  /-- Nodes stand in the order of their numbers. -/
  counted : graph.nodes.Counted NodeId.index graph.nextNode

/-- All records of the graph agree. -/
structure Coherent (graph : Graph) : Prop where
  /-- The records of connections agree. -/
  linked : graph.Linked
  /-- The records of nodes agree. -/
  registered : graph.Registered
  /-- Connections stand in the order of their numbers. -/
  counted : graph.connections.Counted ConnectionId.index graph.nextConnection

/-! ### Changes of nodes -/

theorem nameOf?_modifyNode {f : Node → Node} (hf : ∀ node, (f node).name = node.name)
    (other : NodeId) : (graph.modifyNode id f).nameOf? other = graph.nameOf? other := by
  unfold nameOf?
  rw [node?_modifyNode]
  split
  · cases graph.node? other <;> simp [hf]
  · rfl

theorem nameOf?_insertNode (graph : Graph) (desc : NodeDesc) (other : NodeId) :
    (graph.insertNode desc).nameOf? other =
      if other = ⟨graph.nextNode⟩ then some (graph.newNode desc).name else graph.nameOf? other := by
  unfold nameOf?
  rw [node?_insertNode]
  split <;> rfl

theorem nameOf?_eraseNode (graph : Graph) (id other : NodeId) (name : String) :
    (graph.eraseNode id name).nameOf? other = if other = id then none else graph.nameOf? other := by
  unfold nameOf?
  rw [node?_eraseNode]
  split <;> rfl

theorem nameOf?_rename (graph : Graph) (id other : NodeId) (old new : String) :
    (graph.rename id old new).nameOf? other =
      if other = id then (graph.nameOf? other).map fun _ => new else graph.nameOf? other := by
  unfold nameOf?
  rw [node?_rename]
  split
  · cases graph.node? other <;> rfl
  · rfl

/-- The ports of a new node carry their positions. -/
theorem indexed_newNode (graph : Graph) (desc : NodeDesc) : (graph.newNode desc).Indexed := by
  constructor
  · intro index port hport
    simp only [newNode, List.getElem?_map, Option.map_eq_some_iff] at hport
    obtain ⟨position, hposition, rfl⟩ := hport
    exact (List.getElem?_eq_some_iff.mp hposition).elim fun _ h => by
      rw [List.getElem_range] at h
      exact h.symm
  · intro index port hport
    simp only [newNode, List.getElem?_map, Option.map_eq_some_iff] at hport
    obtain ⟨position, hposition, rfl⟩ := hport
    exact (List.getElem?_eq_some_iff.mp hposition).elim fun _ h => by
      rw [List.getElem_range] at h
      exact h.symm

namespace Registered

/-- The graph without nodes. -/
theorem empty : Graph.empty.Registered where
  named _ _ := by
    constructor
    · intro h
      cases h
    · intro h
      cases h
  indexed _ _ h := by cases h
  counted := ⟨List.Pairwise.nil, fun _ h => by cases h⟩

/-- Nodes that exist have numbers below the next one. -/
theorem lt_nextNode (h : graph.Registered) {id : NodeId} {node : Node}
    (hn : graph.node? id = some node) : id.index < graph.nextNode := by
  by_contra hge
  have hnone : graph.node? id = none := h.counted.get?_eq_none (Nat.not_lt.mp hge)
  rw [hn] at hnone
  cases hnone

/-- A node with the next number does not exist yet. -/
theorem node?_next (h : graph.Registered) : graph.node? ⟨graph.nextNode⟩ = none :=
  h.counted.get?_eq_none (Nat.le_refl _)

/-- A change that shows neither in the names nor in the numbers of ports keeps the nodes
registered. -/
theorem modifyNode (h : graph.Registered) {f : Node → Node}
    (hname : ∀ node, (f node).name = node.name) (hindexed : ∀ node, node.Indexed → (f node).Indexed) :
    (graph.modifyNode id f).Registered where
  named name other := by
    rw [nameOf?_modifyNode hname]
    exact h.named name other
  indexed other node hn := by
    rw [node?_modifyNode] at hn
    split at hn
    · obtain ⟨old, hold, rfl⟩ := Option.map_eq_some_iff.mp hn
      exact hindexed old (h.indexed other old hold)
    · exact h.indexed other node hn
  counted := h.counted.modify id f

/-- A new node is registered under a name that was free. -/
theorem insertNode (h : graph.Registered) (desc : NodeDesc) : (graph.insertNode desc).Registered where
  named name other := by
    have hold := h.named name other
    have hnew := h.named (graph.newNode desc).name other
    have hfree : graph.idOf? (graph.newNode desc).name = none := idOf?_freshName _ _
    have hnone : graph.nameOf? ⟨graph.nextNode⟩ = none := by rw [nameOf?, h.node?_next]; rfl
    rw [idOf?_insertNode, nameOf?_insertNode]
    grind
  indexed other node hn := by
    rw [node?_insertNode] at hn
    split at hn
    · cases hn
      exact indexed_newNode graph desc
    · exact h.indexed other node hn
  counted := h.counted.insert rfl (graph.newNode desc)

/-- The name of a removed node is free again. -/
theorem eraseNode (h : graph.Registered) {node : Node} (hn : graph.node? id = some node) :
    (graph.eraseNode id node.name).Registered where
  named name other := by
    have hold := h.named name other
    have hown := h.named node.name other
    have hname : graph.nameOf? id = some node.name := by rw [nameOf?, hn]; rfl
    have hid := (h.named node.name id).mpr hname
    rw [idOf?_eraseNode, nameOf?_eraseNode]
    grind
  indexed other node hn := by
    rw [node?_eraseNode] at hn
    split at hn
    · cases hn
    · exact h.indexed other node hn
  counted := h.counted.erase id

/-- A renamed node is registered under its new name, which was free. -/
theorem rename (h : graph.Registered) {node : Node} {new : String}
    (hn : graph.node? id = some node) (hfree : graph.idOf? new = none) :
    (graph.rename id node.name new).Registered where
  named name other := by
    have hold := h.named name other
    have hown := h.named node.name other
    have hnew := h.named new other
    have hname : graph.nameOf? id = some node.name := by rw [nameOf?, hn]; rfl
    have hid := (h.named node.name id).mpr hname
    rw [idOf?_rename, nameOf?_rename]
    grind
  indexed other changed hchanged := by
    rw [node?_rename] at hchanged
    split at hchanged
    · obtain ⟨old, hold, rfl⟩ := Option.map_eq_some_iff.mp hchanged
      exact h.indexed other old hold
    · exact h.indexed other changed hchanged
  counted := h.counted.modify id _

/-- A change of the connections of one input port keeps the nodes registered. -/
theorem setFeed (h : graph.Registered) (port : PortRef) (feed : Option ConnectionId) :
    (graph.setFeed port feed).Registered := by
  refine h.modifyNode (fun _ => rfl) fun node hindexed => ⟨fun index input hinput => ?_, hindexed.2⟩
  rw [List.getElem?_modify] at hinput
  obtain ⟨old, hold, rfl⟩ := Option.map_eq_some_iff.mp hinput
  have hindex := hindexed.1 index old hold
  split <;> exact hindex

/-- A change of an output port that keeps its number keeps the nodes registered. -/
theorem modifyOutput (h : graph.Registered) {f : OutputPort → OutputPort}
    (hf : ∀ output, (f output).index = output.index) (port : PortRef) :
    (graph.modifyOutput port f).Registered := by
  refine h.modifyNode (fun _ => rfl) fun node hindexed => ⟨hindexed.1, fun index output houtput => ?_⟩
  rw [List.getElem?_modify] at houtput
  obtain ⟨old, hold, rfl⟩ := Option.map_eq_some_iff.mp houtput
  have hindex := hindexed.2 index old hold
  split
  · rw [hf, hindex]
  · exact hindex

end Registered

end Graph

end OpGraph
