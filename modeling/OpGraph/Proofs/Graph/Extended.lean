import OpGraph.Proofs.Graph.Feed

/-!
# Extended graphs

A graph is extended by lists of nodes and of connections if it holds them behind its own ones, in
this order, and is otherwise as it was: nodes keep their names, types, attributes and ports, and
every output port lists its connections as before, the further ones behind them. Slots need no
mention, since they follow from the connections. What look-ups find in the extended graph can
therefore be read off the graph and the two lists.
-/

namespace OpGraph.Graph

variable {graph later : Graph} {added added' : List (NodeId × Node)}
  {links links' : List (ConnectionId × Connection)} {id : NodeId} {connection : ConnectionId}
  {source destination : PortRef}

/-- The nodes in their order, without connections. -/
def bareNodes (graph : Graph) : List (NodeId × Node) :=
  graph.nodes.toList.map fun entry => (entry.1, entry.2.bare)

/-- The graph has become the later one by the addition of nodes and connections. -/
structure Extended (graph : Graph) (added : List (NodeId × Node))
    (links : List (ConnectionId × Connection)) (later : Graph) : Prop where
  /-- The records agree. -/
  coherent : later.Coherent
  /-- The nodes stand behind those that were there. -/
  nodes : later.bareNodes = graph.bareNodes ++ added
  /-- The names of the nodes stand behind those that were there. -/
  names : later.names.toList = graph.names.toList ++ added.map fun entry => (entry.2.name, entry.1)
  /-- The connections stand behind those that were there. -/
  connections : later.connections.toList = graph.connections.toList ++ links
  /-- An output port lists the connections that start there behind those that it listed. -/
  listed : ∀ id index, later.listed id index = graph.listed id index ++
    (links.filter fun link => link.2.source = .output id index).map Prod.fst

/-! ### Entries -/

theorem map_fst_bareNodes (graph : Graph) : graph.bareNodes.map Prod.fst = graph.nodes.keys := by
  rw [bareNodes, List.map_map]
  rfl

/-- A bare node is found exactly if it is listed. -/
theorem bare?_eq_some_iff {bare : Node} :
    graph.bare? id = some bare ↔ (id, bare) ∈ graph.bareNodes := by
  simp only [bare?, node?, bareNodes, Option.map_eq_some_iff, OrderedMap.get?_eq_some_iff,
    List.mem_map, Prod.mk.injEq, Prod.exists]
  constructor
  · rintro ⟨node, hnode, rfl⟩
    exact ⟨id, node, hnode, rfl, rfl⟩
  · rintro ⟨_, node, hnode, rfl, rfl⟩
    exact ⟨node, hnode, rfl⟩

/-- What an output port feeds is where its connections end. -/
theorem outputDestinations_eq (graph : Graph) (id : NodeId) (index : Nat) :
    graph.outputDestinations id index = (graph.listed id index).filterMap graph.destination? := by
  unfold outputDestinations
  rw [listed_eq]
  cases graph.outputPort? id index with
  | none => rfl
  | some port =>
    simp only [Option.map_some, Option.getD_some, List.map_filterMap]
    rfl

/-- An output port feeds nothing exactly if it lists nothing. -/
theorem Linked.outputDestinations_eq_nil_iff (h : graph.Linked) (index : Nat) :
    graph.outputDestinations id index = [] ↔ graph.listed id index = [] := by
  rw [outputDestinations_eq, List.filterMap_eq_nil_iff, List.eq_nil_iff_forall_not_mem]
  refine forall_congr' fun feed => imp_congr_right fun hmem => iff_of_false ?_ not_false
  obtain ⟨ends, hends, _⟩ := Option.map_eq_some_iff.mp ((h.listed_iff id index feed).mp hmem)
  rw [destination?, hends]
  exact Option.some_ne_none _

/-! ### Single additions -/

/-- A change of a node that shows only in its connections leaves the bare nodes as they are. -/
theorem bareNodes_modifyNode {f : Node → Node} (hf : ∀ node, (f node).bare = node.bare)
    (graph : Graph) (id : NodeId) : (graph.modifyNode id f).bareNodes = graph.bareNodes := by
  simp only [bareNodes, modifyNode, OrderedMap.modify, List.map_map]
  refine List.map_congr_left fun entry _ => ?_
  simp only [Function.comp_apply]
  split
  · rw [hf]
  · rfl

/-- A new connection leaves the bare nodes as they are. -/
theorem bareNodes_insertConnection (graph : Graph) (source destination : PortRef) :
    (graph.insertConnection source destination).bareNodes = graph.bareNodes := by
  have hfed := bareNodes_modifyNode
    (fun node => node.bare_modifyInput
      (f := fun input => { input with connection := some ⟨graph.nextConnection⟩ })
      (fun _ => rfl) destination.index)
    (graph.attachSource source ⟨graph.nextConnection⟩) destination.node
  have hattached := bareNodes_modifyNode
    (fun node => node.bare_modifyOutput (f := fun output =>
      { output with connections := output.connections ++ [⟨graph.nextConnection⟩] })
      (fun _ => ⟨rfl, rfl⟩) source.index) graph source.node
  exact hfed.trans hattached

/-- A node is added. -/
theorem Coherent.extended_insertNode (h : graph.Coherent) (desc : NodeDesc) :
    graph.Extended [(⟨graph.nextNode⟩, graph.newNode desc)] [] (graph.insertNode desc) where
  coherent := h.change (.insertNode desc)
  nodes := by
    have hentries : (graph.insertNode desc).nodes.toList =
        graph.nodes.toList ++ [(⟨graph.nextNode⟩, graph.newNode desc)] :=
      OrderedMap.toList_insert_of_absent h.registered.node?_next _
    rw [bareNodes, hentries, List.map_append, List.map_singleton, bare_newNode]
    rfl
  names := OrderedMap.toList_insert_of_absent (graph.idOf?_freshName _) _
  connections := (List.append_nil _).symm
  listed id index := by
    rw [graph.listed_insertNode desc h.registered.node?_next, List.filter_nil, List.map_nil,
      List.append_nil]

/-- A connection is added. -/
theorem Coherent.extended_insertConnection (h : graph.Coherent)
    (hcheck : graph.checkConnect source destination = .ok ()) :
    graph.Extended [] [(⟨graph.nextConnection⟩, ⟨source, destination⟩)]
      (graph.insertConnection source destination) where
  coherent := h.change (.insertConnection hcheck)
  nodes := (graph.bareNodes_insertConnection source destination).trans (List.append_nil _).symm
  names := (List.append_nil _).symm
  connections := OrderedMap.toList_insert_of_absent h.connection?_next _
  listed id index := by
    obtain ⟨hdir, _, hport, _⟩ := (graph.checkConnect_eq_ok_iff source destination).mp hcheck
    have hstart : source = .output id index ↔ id = source.node ∧ index = source.index := by
      rw [PortRef.eq_output hdir]
      simp [PortRef.output, eq_comm]
    rw [listed_insertConnection hport hdir]
    by_cases hown : id = source.node ∧ index = source.index
    · rw [if_pos hown, List.filter_cons_of_pos (by simpa only [decide_eq_true_eq, hstart] using hown)]
      rfl
    · rw [if_neg hown, List.filter_cons_of_neg (by simpa only [decide_eq_true_eq, hstart] using hown)]
      exact (List.append_nil _).symm

namespace Extended

theorem refl (h : graph.Coherent) : graph.Extended [] [] graph where
  coherent := h
  nodes := (List.append_nil _).symm
  names := (List.append_nil _).symm
  connections := (List.append_nil _).symm
  listed _ _ := (List.append_nil _).symm

/-- Two extensions, one after the other, are one. -/
theorem trans {middle : Graph} (h : graph.Extended added links middle)
    (h' : middle.Extended added' links' later) :
    graph.Extended (added ++ added') (links ++ links') later where
  coherent := h'.coherent
  nodes := by rw [h'.nodes, h.nodes, List.append_assoc]
  names := by rw [h'.names, h.names, List.map_append, List.append_assoc]
  connections := by rw [h'.connections, h.connections, List.append_assoc]
  listed id index := by
    rw [h'.listed, h.listed, List.filter_append, List.map_append, List.append_assoc]

/-! ### Look-ups -/

variable (h : graph.Extended added links later)
include h

/-- A node, connections apart, was there or was added. -/
theorem bare?_iff {bare : Node} :
    later.bare? id = some bare ↔ graph.bare? id = some bare ∨ (id, bare) ∈ added := by
  rw [bare?_eq_some_iff, h.nodes, List.mem_append, bare?_eq_some_iff]

/-- A connection was there or was added. -/
theorem connection?_iff {ends : Connection} :
    later.connection? connection = some ends ↔
      graph.connection? connection = some ends ∨ (connection, ends) ∈ links := by
  simp only [connection?, OrderedMap.get?_eq_some_iff, h.connections, List.mem_append]

/-- Nodes that were there are what they were. -/
theorem bare?_of_isSome (hold : (graph.node? id).isSome = true) :
    later.bare? id = graph.bare? id := by
  rw [← isSome_bare?] at hold
  obtain ⟨bare, hbare⟩ := Option.isSome_iff_exists.mp hold
  rw [hbare]
  exact h.bare?_iff.mpr (.inl hbare)

/-- The numbers of nodes that are added were not in use. -/
theorem node?_eq_none_of_mem {entry : NodeId × Node} (hentry : entry ∈ added) :
    graph.node? entry.1 = none := by
  have hkeys : later.nodes.keys = graph.nodes.keys ++ added.map Prod.fst := by
    rw [← map_fst_bareNodes, h.nodes, List.map_append, map_fst_bareNodes]
  have hnodup : (graph.nodes.keys ++ added.map Prod.fst).Nodup := hkeys ▸ later.nodes.nodup_keys
  by_contra hfound
  have hold := (graph.nodes.mem_keys_iff entry.1).mpr (Option.isSome_iff_ne_none.mpr hfound)
  exact (List.nodup_append.mp hnodup).2.2 _ hold _ (List.mem_map_of_mem hentry) rfl

/-- Ports that were there are there. -/
theorem hasPort {port : PortRef} (hport : graph.HasPort port) : later.HasPort port := by
  obtain ⟨bare, hbare, hindex⟩ := hasPort_iff_bare?.mp hport
  exact hasPort_iff_bare?.mpr ⟨bare, h.bare?_iff.mpr (.inl hbare), hindex⟩

/-- An output port feeds what it fed, and behind it what the connections from there lead to. -/
theorem outputDestinations (hgraph : graph.Linked) (id : NodeId) (index : Nat) :
    later.outputDestinations id index = graph.outputDestinations id index ++
      (links.filter fun link => link.2.source = .output id index).map (·.2.destination) := by
  have hold : ∀ feed ∈ graph.listed id index, later.destination? feed = graph.destination? feed := by
    intro feed hfeed
    obtain ⟨ends, hends, _⟩ := Option.map_eq_some_iff.mp ((hgraph.listed_iff id index feed).mp hfeed)
    rw [destination?, destination?, hends, h.connection?_iff.mpr (.inl hends)]
  have hnew : ∀ link ∈ links.filter fun link => link.2.source = .output id index,
      later.destination? link.1 = some link.2.destination := by
    intro link hlink
    rw [destination?, h.connection?_iff.mpr (.inr (List.mem_filter.mp hlink).1)]
    rfl
  rw [outputDestinations_eq, h.listed, List.filterMap_append, List.filterMap_congr hold,
    ← outputDestinations_eq, List.filterMap_map, ← List.filterMap_eq_map]
  exact congrArg _ (List.filterMap_congr hnew)

/-- A port at which no further connection starts feeds what it fed. -/
theorem outputDestinations_of_notMem (hgraph : graph.Linked) {index : Nat}
    (hnone : ∀ link ∈ links, link.2.source ≠ .output id index) :
    later.outputDestinations id index = graph.outputDestinations id index := by
  have hempty : (links.filter fun link => link.2.source = .output id index) = [] :=
    List.filter_eq_nil_iff.mpr fun link hlink => by simpa using hnone link hlink
  rw [h.outputDestinations hgraph, hempty, List.map_nil, List.append_nil]

/-- A port at which no further connection ends is fed by the connection that fed it. -/
theorem inputConnection?_of_notMem (hgraph : graph.Linked) {index : Nat}
    (hnone : ∀ link ∈ links, link.2.destination ≠ .input id index) :
    later.inputConnection? id index = graph.inputConnection? id index := by
  apply Option.ext
  intro feed
  rw [h.coherent.linked.feed_iff, hgraph.feed_iff]
  simp only [destination?, Option.map_eq_some_iff, h.connection?_iff]
  constructor
  · rintro ⟨ends, hold | hnew, hend⟩
    · exact ⟨ends, hold, hend⟩
    · exact absurd hend (hnone _ hnew)
  · rintro ⟨ends, hold, hend⟩
    exact ⟨ends, .inl hold, hend⟩

end Extended

end OpGraph.Graph
