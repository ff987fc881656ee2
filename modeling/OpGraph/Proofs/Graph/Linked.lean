import Mathlib.Data.List.Nodup
import OpGraph.Proofs.Graph.Lookup

/-!
# Linked graphs

A connection is recorded in the table, in the list of the output port at which it starts and in
the slot of the input port at which it ends. In a linked graph the three records say the same.
Every change of the connections keeps them in step; a node may only go when nothing is attached.
-/

namespace OpGraph

/-- The address of an output port, from its parts. -/
theorem PortRef.eq_output {port : PortRef} (h : port.direction = .output) :
    port = .output port.node port.index := by
  cases port
  cases h
  rfl

/-- Different output ports differ in the node or in the index. -/
theorem PortRef.not_same_place {port other : PortRef} (h : port.direction = .output)
    (h' : other.direction = .output) (hne : port ≠ other) :
    ¬ (port.node = other.node ∧ port.index = other.index) := by
  rintro ⟨hnode, hindex⟩
  exact hne (by rw [eq_output h, eq_output h', hnode, hindex])

/-- The address of an input port, from its parts. -/
theorem PortRef.eq_input {port : PortRef} (h : port.direction = .input) :
    port = .input port.node port.index := by
  cases port
  cases h
  rfl

namespace Graph

/-- The table of connections, the lists of output ports and the slots of input ports agree. -/
structure Linked (graph : Graph) : Prop where
  /-- A port lists exactly the connections of the table that start there. -/
  listed_iff : ∀ node index id,
    id ∈ graph.listed node index ↔ graph.source? id = some (.output node index)
  /-- A slot holds exactly the connection of the table that ends there. -/
  feed_iff : ∀ node index id,
    graph.inputConnection? node index = some id ↔ graph.destination? id = some (.input node index)
  /-- Connections start at output ports. -/
  source_output : ∀ id port, graph.source? id = some port → port.direction = .output
  /-- Connections end at input ports. -/
  destination_input : ∀ id port, graph.destination? id = some port → port.direction = .input
  /-- No connection is listed twice at one port. -/
  nodup : ∀ node index, (graph.listed node index).Nodup

namespace Linked

variable {graph changed : Graph} {id : ConnectionId} {ends : Connection} {node : NodeId}
  {port : PortRef}

/-- The graph without nodes is linked. -/
theorem empty : Graph.empty.Linked where
  listed_iff _ _ _ := by
    constructor
    · intro h
      simp [listed, node?, Graph.empty, EmptyCollection.emptyCollection] at h
    · intro h
      cases h
  feed_iff _ _ _ := by
    constructor
    · intro h
      simp [inputConnection?_eq, node?, Graph.empty, EmptyCollection.emptyCollection] at h
    · intro h
      cases h
  source_output _ _ h := by cases h
  destination_input _ _ h := by cases h
  nodup _ _ := by simp [listed, node?, Graph.empty, EmptyCollection.emptyCollection]

/-- A change that shows in none of the three records keeps a graph linked. -/
theorem congr (h : graph.Linked) (htable : ∀ id, changed.connection? id = graph.connection? id)
    (hlisted : ∀ node index, changed.listed node index = graph.listed node index)
    (hfeed : ∀ node index, changed.inputConnection? node index = graph.inputConnection? node index) :
    changed.Linked := by
  have hsource : ∀ id, changed.source? id = graph.source? id := fun id => by
    rw [source?, source?, htable]
  have hdestination : ∀ id, changed.destination? id = graph.destination? id := fun id => by
    rw [destination?, destination?, htable]
  constructor
  · simpa only [hlisted, hsource] using h.listed_iff
  · simpa only [hfeed, hdestination] using h.feed_iff
  · simpa only [hsource] using h.source_output
  · simpa only [hdestination] using h.destination_input
  · simpa only [hlisted] using h.nodup

/-- A connection of the table starts at a port that exists and lists it. -/
theorem hasPort_source (h : graph.Linked) (hsource : graph.source? id = some port) :
    graph.HasPort port := by
  have hport := PortRef.eq_output (h.source_output id port hsource)
  rw [hport] at hsource ⊢
  exact hasPort_of_mem_listed ((h.listed_iff port.node port.index id).mpr hsource)

/-- A connection of the table ends at a port that exists and holds it. -/
theorem hasPort_destination (h : graph.Linked) (hdestination : graph.destination? id = some port) :
    graph.HasPort port := by
  have hport := PortRef.eq_input (h.destination_input id port hdestination)
  rw [hport] at hdestination ⊢
  exact hasPort_of_inputConnection? ((h.feed_iff port.node port.index id).mpr hdestination)

/-- The connections of a node are those that end or start there. -/
theorem mem_connectionIds (h : graph.Linked) {own : Node} (hn : graph.node? node = some own) :
    id ∈ own.connectionIds ↔ (∃ index, graph.destination? id = some (.input node index)) ∨
      ∃ index, graph.source? id = some (.output node index) := by
  rw [Node.mem_connectionIds]
  simp only [← graph.inputConnection?_of_node? hn, ← graph.listed_of_node? hn, h.feed_iff,
    h.listed_iff]

/-- Two input ports hold different connections. -/
theorem nodup_incoming (h : graph.Linked) {own : Node} (hn : graph.node? node = some own) :
    (own.inputs.filterMap (·.connection)).Nodup := by
  rw [List.Nodup, List.pairwise_filterMap, List.pairwise_iff_getElem]
  rintro first second hfirst hsecond hlt connection hheld _ hother rfl
  have hslot : ∀ index (hindex : index < own.inputs.length),
      own.inputs[index].connection = some connection →
        graph.destination? connection = some (.input node index) := by
    intro index hindex hheld
    refine (h.feed_iff node index connection).mp ?_
    rw [graph.inputConnection?_of_node? hn, Node.feed?, List.getElem?_eq_getElem hindex]
    exact hheld
  have hsame := (hslot first hfirst hheld).symm.trans (hslot second hsecond hother)
  have hindex : first = second := congrArg PortRef.index (Option.some.inj hsame)
  exact absurd hindex (Nat.ne_of_lt hlt)

/-- Two output ports list different connections, and so does each of them. -/
theorem nodup_outgoing (h : graph.Linked) {own : Node} (hn : graph.node? node = some own) :
    (own.outputs.flatMap (·.connections)).Nodup := by
  have hlisted : ∀ index (hindex : index < own.outputs.length),
      graph.listed node index = own.outputs[index].connections := fun index hindex =>
    (graph.listed_of_node? hn index).trans (Node.listed_of_lt hindex)
  refine List.nodup_flatMap.mpr ⟨fun port hport => ?_, ?_⟩
  · obtain ⟨index, hindex, rfl⟩ := List.mem_iff_getElem.mp hport
    rw [← hlisted index hindex]
    exact h.nodup node index
  · rw [List.pairwise_iff_getElem]
    intro first second hfirst hsecond hlt connection hmem hother
    have hstart := (h.listed_iff node first connection).mp (hlisted first hfirst ▸ hmem)
    have hagain := (h.listed_iff node second connection).mp (hlisted second hsecond ▸ hother)
    have hsame := hstart.symm.trans hagain
    have hindex : first = second := congrArg PortRef.index (Option.some.inj hsame)
    exact absurd hindex (Nat.ne_of_lt hlt)

/-- A connection with a new number between ports that may be connected keeps a graph linked. -/
theorem insertConnection (h : graph.Linked) {source destination : PortRef}
    (hfresh : graph.connection? ⟨graph.nextConnection⟩ = none)
    (hcheck : graph.checkConnect source destination = .ok ()) :
    (graph.insertConnection source destination).Linked := by
  obtain ⟨hdirSource, hdirDestination, hportSource, hportDestination, hfree⟩ :=
    (graph.checkConnect_eq_ok_iff source destination).mp hcheck
  have hnosource : graph.source? ⟨graph.nextConnection⟩ = none := by rw [source?, hfresh]; rfl
  have hnodestination : graph.destination? ⟨graph.nextConnection⟩ = none := by
    rw [destination?, hfresh]; rfl
  constructor
  · intro node index id
    have hold := h.listed_iff node index id
    rw [listed_insertConnection hportSource hdirSource, source?_insertConnection]
    grind [PortRef.output, PortRef.eq_output]
  · intro node index id
    have hold := h.feed_iff node index id
    rw [inputConnection?_insertConnection hportDestination hdirDestination,
      destination?_insertConnection]
    grind [PortRef.input, PortRef.eq_input]
  · intro id port
    rw [source?_insertConnection]
    have hold := h.source_output id port
    grind
  · intro id port
    rw [destination?_insertConnection]
    have hold := h.destination_input id port
    grind
  · intro node index
    rw [listed_insertConnection hportSource hdirSource]
    have hnodup := h.nodup node index
    have hnew := (h.listed_iff node index ⟨graph.nextConnection⟩).not.mpr (by simp [hnosource])
    split
    · exact List.nodup_append.mpr ⟨hnodup, List.nodup_singleton _, by grind⟩
    · exact hnodup

/-- The removal of a connection keeps a graph linked. -/
theorem eraseConnection (h : graph.Linked) (hends : graph.connection? id = some ends) :
    (graph.eraseConnection id ends).Linked := by
  have hsource : graph.source? id = some ends.source := by rw [source?, hends]; rfl
  have hdestination : graph.destination? id = some ends.destination := by
    rw [destination?, hends]; rfl
  have hdirSource := h.source_output id ends.source hsource
  have hdirDestination := h.destination_input id ends.destination hdestination
  constructor
  · intro node index other
    have hold := h.listed_iff node index other
    have hown := h.listed_iff node index id
    rw [listed_eraseConnection, source?_eraseConnection]
    grind [PortRef.output, PortRef.eq_output]
  · intro node index other
    have hold := h.feed_iff node index other
    have hown := h.feed_iff node index id
    rw [inputConnection?_eraseConnection (h.hasPort_destination hdestination) hdirDestination,
      destination?_eraseConnection]
    grind [PortRef.input, PortRef.eq_input]
  · intro other port
    rw [source?_eraseConnection]
    have hold := h.source_output other port
    grind
  · intro other port
    rw [destination?_eraseConnection]
    have hold := h.destination_input other port
    grind
  · intro node index
    rw [listed_eraseConnection]
    split
    · exact (h.nodup node index).filter _
    · exact h.nodup node index

/-- The removal of a node to which nothing is attached keeps a graph linked. -/
theorem eraseNode (h : graph.Linked) {name : String}
    (hsource : ∀ id port, graph.source? id = some port → port.node ≠ node)
    (hdestination : ∀ id port, graph.destination? id = some port → port.node ≠ node) :
    (graph.eraseNode node name).Linked := by
  constructor
  · intro other index id
    have hold := h.listed_iff other index id
    have hfree := hsource id (.output other index)
    rw [listed_eraseNode]
    change _ ↔ graph.source? id = some (.output other index)
    grind [PortRef.output]
  · intro other index id
    have hold := h.feed_iff other index id
    have hfree := hdestination id (.input other index)
    rw [inputConnection?_eraseNode]
    change _ ↔ graph.destination? id = some (.input other index)
    grind [PortRef.input]
  · exact h.source_output
  · exact h.destination_input
  · intro other index
    rw [listed_eraseNode]
    split
    · exact List.nodup_nil
    · exact h.nodup other index

/-- A connection that moves to a free input port keeps a graph linked. -/
theorem moveDestination (h : graph.Linked) (hends : graph.connection? id = some ends)
    (hdir : port.direction = .input) (hport : graph.HasPort port)
    (hfree : graph.inputConnection? port.node port.index = none) :
    (graph.moveDestination id ends.destination port).Linked := by
  have hdestination : graph.destination? id = some ends.destination := by
    rw [destination?, hends]; rfl
  have hdirDestination := h.destination_input id ends.destination hdestination
  constructor
  · intro node index other
    rw [listed_moveDestination, source?_moveDestination]
    exact h.listed_iff node index other
  · intro node index other
    have hold := h.feed_iff node index other
    have hown := h.feed_iff node index id
    rw [inputConnection?_moveDestination (h.hasPort_destination hdestination) hport
      hdirDestination hdir, destination?_moveDestination]
    grind [PortRef.input, PortRef.eq_input]
  · intro other start
    rw [source?_moveDestination]
    exact h.source_output other start
  · intro other finish
    rw [destination?_moveDestination]
    have hold := h.destination_input other finish
    grind
  · intro node index
    rw [listed_moveDestination]
    exact h.nodup node index

/-- A connection that moves to another output port keeps a graph linked. -/
theorem moveSource (h : graph.Linked) (hends : graph.connection? id = some ends)
    (hdir : port.direction = .output) (hport : graph.HasPort port) (hne : port ≠ ends.source) :
    (graph.moveSource id ends.source port).Linked := by
  have hsource : graph.source? id = some ends.source := by rw [source?, hends]; rfl
  have hother := PortRef.not_same_place hdir (h.source_output id ends.source hsource) hne
  constructor
  · intro node index other
    have hold := h.listed_iff node index other
    have hown := h.listed_iff node index id
    rw [listed_moveSource hport hdir hother, source?_moveSource]
    grind [PortRef.output, PortRef.eq_output]
  · intro node index other
    rw [inputConnection?_moveSource, destination?_moveSource]
    exact h.feed_iff node index other
  · intro other start
    rw [source?_moveSource]
    have hold := h.source_output other start
    grind
  · intro other finish
    rw [destination?_moveSource]
    exact h.destination_input other finish
  · intro node index
    have hnodup := h.nodup node index
    have hown := h.listed_iff node index id
    rw [listed_moveSource hport hdir hother]
    split
    · refine List.nodup_append.mpr ⟨hnodup, List.nodup_singleton _, ?_⟩
      grind [PortRef.output, PortRef.eq_output]
    · split
      · exact hnodup.filter _
      · exact hnodup

end Linked

end Graph

end OpGraph
