import Mathlib.Data.List.Forall2
import OpGraph.Proofs.Edit.Exact
import OpGraph.Proofs.Edit.Operation
import OpGraph.Proofs.Graph.Extended

/-!
# Graphs drawn from lists

A graph that only ever grew is the drawing of two lists: what was asked of its nodes and what its
connections join, each in the order of creation. All that the check of a further connection asks of
such a graph can be read off the lists. Names of nodes are left open, since the graph may have had
to change them.
-/

namespace OpGraph

/-- The node is as a description asks, whatever its name and its connections. -/
structure Node.MadeFrom (desc : NodeDesc) (node : Node) : Prop where
  /-- The type is the one that was asked for. -/
  opType : node.opType = desc.opType
  /-- The attributes are those that were asked for. -/
  attributes : node.attributes = desc.attributes
  /-- There are as many input ports as were asked for. -/
  inputs : node.inputs.length = desc.inputs
  /-- There are as many output ports as were asked for. -/
  outputs : node.outputs.length = desc.outputs
  /-- Nothing is known about the tensors that it delivers. -/
  blank : ∀ port ∈ node.outputs, port.info = none

/-- Connections do not matter for what a node is made from. -/
theorem Node.madeFrom_bare {desc : NodeDesc} {node : Node} :
    node.bare.MadeFrom desc ↔ node.MadeFrom desc := by
  have hblank : (∀ port ∈ node.bare.outputs, port.info = none) ↔
      ∀ port ∈ node.outputs, port.info = none := by
    simp [bare]
  constructor
  · intro h
    exact ⟨h.opType, h.attributes, by simpa [bare] using h.inputs, by simpa [bare] using h.outputs,
      hblank.mp h.blank⟩
  · intro h
    exact ⟨h.opType, h.attributes, by simpa [bare] using h.inputs, by simpa [bare] using h.outputs,
      hblank.mpr h.blank⟩

namespace Graph

variable {graph : Graph} {drafts : List NodeDesc} {wires : List (Option Connection)} {id : NodeId}

/-- The nodes of the graph, numbered from zero on, are made from descriptions, and its connections
join what is listed, all in this order. -/
structure Drawn (drafts : List NodeDesc) (wires : List (Option Connection)) (graph : Graph) :
    Prop where
  /-- The records agree. -/
  coherent : graph.Coherent
  /-- Nodes bear the numbers from zero on. -/
  keys : graph.nodes.keys = (List.range drafts.length).map NodeId.mk
  /-- Nodes are as was asked. -/
  nodes : List.Forall₂ (fun desc node => node.MadeFrom desc) drafts graph.nodes.values
  /-- Connections join what is listed. -/
  connections : graph.connections.values.map some = wires
  /-- The next number is the number of nodes. -/
  nextNode : graph.nextNode = drafts.length

theorem madeFrom_newNode (graph : Graph) (desc : NodeDesc) (name : Option String) :
    (graph.newNode { desc with name }).MadeFrom desc where
  opType := rfl
  attributes := rfl
  inputs := by simp [newNode]
  outputs := by simp [newNode]
  blank := by simp [newNode]

namespace Drawn

theorem empty : Graph.empty.Drawn [] [] :=
  ⟨.empty, rfl, .nil, rfl, rfl⟩

/-- Whether the nodes are as was asked shows on the bare nodes. -/
theorem madeFrom_values_iff :
    List.Forall₂ (fun desc node => node.MadeFrom desc) drafts graph.nodes.values ↔
      List.Forall₂ (fun desc entry => entry.2.MadeFrom desc) drafts graph.bareNodes := by
  rw [bareNodes, OrderedMap.values, List.forall₂_map_right_iff, List.forall₂_map_right_iff]
  simp only [Node.madeFrom_bare]

/-- A further node is drawn at the end. -/
theorem insertNode (h : graph.Drawn drafts wires) (desc : NodeDesc) (name : Option String) :
    (graph.insertNode { desc with name }).Drawn (drafts ++ [desc]) wires := by
  have hextended := h.coherent.extended_insertNode { desc with name }
  refine ⟨hextended.coherent, ?_, madeFrom_values_iff.mpr ?_, h.connections, ?_⟩
  · rw [← map_fst_bareNodes, hextended.nodes, List.map_append, map_fst_bareNodes, h.keys, h.nextNode]
    simp [List.range_succ]
  · rw [hextended.nodes]
    exact List.rel_append (madeFrom_values_iff.mp h.nodes)
      (.cons (graph.madeFrom_newNode desc name) .nil)
  · change graph.nextNode + 1 = _
    rw [h.nextNode, List.length_append, List.length_singleton]

/-- A further connection is drawn at the end. -/
theorem insertConnection (h : graph.Drawn drafts wires) {source destination : PortRef}
    (hcheck : graph.checkConnect source destination = .ok ()) :
    (graph.insertConnection source destination).Drawn drafts
      (wires ++ [some ⟨source, destination⟩]) := by
  have hextended := h.coherent.extended_insertConnection hcheck
  refine ⟨hextended.coherent, ?_, madeFrom_values_iff.mpr ?_, ?_, h.nextNode⟩
  · rw [← map_fst_bareNodes, hextended.nodes, List.append_nil, map_fst_bareNodes, h.keys]
  · rw [hextended.nodes, List.append_nil]
    exact madeFrom_values_iff.mp h.nodes
  · rw [OrderedMap.values, hextended.connections, List.map_append, List.map_append, ← h.connections]
    rfl

/-- A node is found at the place of its number. -/
theorem node?_eq (h : graph.Drawn drafts wires) (id : NodeId) :
    graph.node? id = graph.nodes.values[id.index]? := by
  have hkey : ∀ {index : Nat} {key : NodeId} {node : Node},
      graph.nodes.toList[index]? = some (key, node) → key.index = index := by
    intro index key node hentry
    have hkey : graph.nodes.keys[index]? = some key := by
      rw [OrderedMap.keys, List.getElem?_map, hentry]
      rfl
    rw [h.keys, List.getElem?_map] at hkey
    obtain ⟨number, hnumber, rfl⟩ := Option.map_eq_some_iff.mp hkey
    obtain ⟨hlt, hget⟩ := List.getElem?_eq_some_iff.mp hnumber
    rw [← hget, List.getElem_range]
  apply Option.ext
  intro node
  rw [Graph.node?, OrderedMap.get?_eq_some_iff, OrderedMap.values, List.getElem?_map,
    Option.map_eq_some_iff]
  constructor
  · intro hmem
    obtain ⟨index, hindex⟩ := List.mem_iff_getElem?.mp hmem
    exact ⟨(id, node), by rw [hkey hindex, hindex], rfl⟩
  · rintro ⟨⟨key, _⟩, hentry, rfl⟩
    have hid : key = id := by
      have hnumber := hkey hentry
      cases key
      cases id
      cases hnumber
      rfl
    exact hid ▸ List.mem_of_getElem? hentry

/-- A node exists exactly if it was asked for, and then is as was asked. -/
theorem exists_node?_iff (h : graph.Drawn drafts wires) {P : Node → Prop} {R : NodeDesc → Prop}
    (hsame : ∀ desc node, node.MadeFrom desc → (P node ↔ R desc)) :
    (∃ node, graph.node? id = some node ∧ P node) ↔
      ∃ desc, drafts[id.index]? = some desc ∧ R desc := by
  obtain ⟨hlength, hmade⟩ := List.forall₂_iff_get.mp h.nodes
  rw [h.node?_eq]
  constructor
  · rintro ⟨node, hnode, hP⟩
    obtain ⟨hlt, rfl⟩ := List.getElem?_eq_some_iff.mp hnode
    exact ⟨_, List.getElem?_eq_getElem (hlength ▸ hlt), (hsame _ _ (hmade _ (hlength ▸ hlt) hlt)).mp hP⟩
  · rintro ⟨desc, hdesc, hR⟩
    obtain ⟨hlt, rfl⟩ := List.getElem?_eq_some_iff.mp hdesc
    exact ⟨_, List.getElem?_eq_getElem (hlength ▸ hlt), (hsame _ _ (hmade _ hlt (hlength ▸ hlt))).mpr hR⟩

/-- The output ports are those that were asked for. -/
theorem hasPort_output_iff (h : graph.Drawn drafts wires) {port : Nat} :
    graph.HasPort (.output id port) ↔
      ∃ desc, drafts[id.index]? = some desc ∧ port < desc.outputs :=
  h.exists_node?_iff fun desc node hmade => by
    change port < node.outputs.length ↔ _
    rw [hmade.outputs]

/-- The input ports are those that were asked for. -/
theorem hasPort_input_iff (h : graph.Drawn drafts wires) {port : Nat} :
    graph.HasPort (.input id port) ↔
      ∃ desc, drafts[id.index]? = some desc ∧ port < desc.inputs :=
  h.exists_node?_iff fun desc node hmade => by
    change port < node.inputs.length ↔ _
    rw [hmade.inputs]

/-- What is listed was connected. -/
theorem mem_wires_iff (h : graph.Drawn drafts wires) {wire : Option Connection} :
    wire ∈ wires ↔ ∃ id connection, wire = some connection ∧ graph.connection? id = some connection := by
  rw [← h.connections, List.mem_map]
  simp only [OrderedMap.mem_values_iff]
  constructor
  · rintro ⟨connection, ⟨id, hid⟩, rfl⟩
    exact ⟨id, connection, rfl, hid⟩
  · rintro ⟨id, connection, rfl, hid⟩
    exact ⟨connection, ⟨id, hid⟩, rfl⟩

/-- An input port is free exactly if nothing that is listed ends there. -/
theorem inputConnection?_eq_none_iff (h : graph.Drawn drafts wires) {port : Nat} :
    graph.inputConnection? id port = none ↔
      ∀ connection, some connection ∈ wires → connection.destination ≠ .input id port := by
  constructor
  · intro hfree connection hmem hends
    obtain ⟨number, _, hwire, hfound⟩ := h.mem_wires_iff.mp hmem
    cases hwire
    have hdestination : graph.destination? number = some (.input id port) := by
      rw [destination?, hfound, Option.map_some, hends]
    rw [(h.coherent.linked.feed_iff id port number).mpr hdestination] at hfree
    cases hfree
  · intro hnone
    by_contra hfed
    obtain ⟨number, hnumber⟩ := Option.ne_none_iff_exists'.mp hfed
    obtain ⟨connection, hfound, hends⟩ := Option.map_eq_some_iff.mp
      ((h.coherent.linked.feed_iff id port number).mp hnumber)
    exact hnone connection (h.mem_wires_iff.mpr ⟨number, connection, rfl, hfound⟩) hends

/-- What is listed ends at nodes that were asked for. -/
theorem lt_length_of_mem (h : graph.Drawn drafts wires) {connection : Connection}
    (hmem : some connection ∈ wires) : connection.destination.node.index < drafts.length := by
  obtain ⟨number, _, hwire, hfound⟩ := h.mem_wires_iff.mp hmem
  cases hwire
  have hdestination : graph.destination? number = some connection.destination := by
    rw [destination?, hfound]
    rfl
  obtain ⟨node, hn, _⟩ := h.coherent.linked.hasPort_destination hdestination
  rw [← h.nextNode]
  exact h.coherent.registered.lt_nextNode hn

/-- A connection may be made exactly between ports that were asked for, if nothing that is listed
ends at the input port. -/
theorem checkConnect_eq_ok_iff (h : graph.Drawn drafts wires) {source destination : NodeId}
    {sourcePort destinationPort : Nat} :
    graph.checkConnect (.output source sourcePort) (.input destination destinationPort) = .ok () ↔
      (∃ desc, drafts[source.index]? = some desc ∧ sourcePort < desc.outputs) ∧
      (∃ desc, drafts[destination.index]? = some desc ∧ destinationPort < desc.inputs) ∧
      ∀ connection, some connection ∈ wires →
        connection.destination ≠ .input destination destinationPort := by
  rw [Graph.checkConnect_eq_ok_iff, h.hasPort_output_iff, h.hasPort_input_iff,
    ← h.inputConnection?_eq_none_iff]
  exact ⟨fun ⟨_, _, hports⟩ => hports, fun hports => ⟨rfl, rfl, hports⟩⟩

/-- Two ports are connected exactly if the check passes. -/
theorem succeedsIff_connect (h : graph.Drawn drafts wires) (source destination : PortRef) :
    Edit.SucceedsIff (discard (Edit.connect source destination)) graph
      (graph.checkConnect source destination = .ok ())
      (fun _ result => result.Drawn drafts (wires ++ [some ⟨source, destination⟩])) where
  sound hrun := by
    obtain ⟨_, hrun⟩ := Edit.run_discard_eq_ok.mp hrun
    obtain ⟨hcheck, _, rfl⟩ := Edit.run_connect_eq_ok.mp hrun
    exact ⟨hcheck, h.insertConnection hcheck⟩
  complete hcheck := ⟨PUnit.unit, _, Edit.run_discard_eq_ok.mpr
    ⟨_, Edit.run_connect_eq_ok.mpr ⟨hcheck, rfl, rfl⟩⟩⟩

/-- A further node can always be made. -/
theorem succeedsIff_addNode (h : graph.Drawn drafts wires) (desc : NodeDesc) (name : Option String) :
    Edit.SucceedsIff (Edit.addNode { desc with name }) graph True
      (fun id result => id = ⟨drafts.length⟩ ∧ result.Drawn (drafts ++ [desc]) wires) where
  sound hrun := by
    cases hrun
    exact ⟨trivial, by rw [h.nextNode], h.insertNode desc name⟩
  complete _ := ⟨_, _, rfl⟩

end Drawn

end Graph

end OpGraph
