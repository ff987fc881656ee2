import OpGraph.Proofs.FailedOperations
import OpGraph.Proofs.Graph.Cut

/-!
# What the removal of a node takes away

A node is removed with the connections that start or end there, however many lead to one and the same
node, and a self-loop among them counts once. Strict removal does not take place if there are any;
otherwise the connections are cut one after another, and then the node goes with its name. No other
node, no other connection and no other name is touched, and none changes its place.
-/

namespace OpGraph

open Edit

/-- The connection starts or ends at the node. -/
def Connection.Touches (ends : Connection) (id : NodeId) : Prop :=
  ends.source.node = id ∨ ends.destination.node = id

instance (ends : Connection) (id : NodeId) : Decidable (ends.Touches id) :=
  inferInstanceAs (Decidable (_ ∨ _))

/-- The order in which the connections are named does not matter. -/
theorem Node.cut_congr {gone gone' : List ConnectionId} (h : ∀ id, id ∈ gone ↔ id ∈ gone')
    (node : Node) : node.cut gone = node.cut gone' := by
  simp only [cut, h]

namespace Graph

variable {graph result : Graph} {id : NodeId} {node : Node} {connection : ConnectionId}

/-! ### Attached connections -/

/-- Connections of the table that start or end at the node, in the order of the table. -/
def attached (graph : Graph) (id : NodeId) : List ConnectionId :=
  (graph.connections.toList.filter fun entry => entry.2.Touches id).map Prod.fst

theorem mem_attached_iff : connection ∈ graph.attached id ↔
    ∃ ends, graph.connection? connection = some ends ∧ ends.Touches id := by
  simp only [attached, List.mem_map, List.mem_filter, decide_eq_true_eq]
  constructor
  · rintro ⟨entry, ⟨hentry, htouches⟩, rfl⟩
    exact ⟨entry.2, (graph.connections.get?_eq_some_iff _ _).mpr hentry, htouches⟩
  · rintro ⟨ends, hends, htouches⟩
    exact ⟨(connection, ends), ⟨(graph.connections.get?_eq_some_iff _ _).mp hends, htouches⟩, rfl⟩

theorem nodup_attached (graph : Graph) (id : NodeId) : (graph.attached id).Nodup :=
  graph.connections.nodup_keys.sublist (List.filter_sublist.map Prod.fst)

/-- The connections that a node holds and lists are those of the table that are attached to it. -/
theorem Linked.mem_connectionIds_iff_attached (h : graph.Linked) (hn : graph.node? id = some node) :
    connection ∈ node.connectionIds ↔ connection ∈ graph.attached id := by
  rw [h.mem_connectionIds hn, mem_attached_iff]
  constructor
  · rintro (⟨index, hend⟩ | ⟨index, hstart⟩)
    · obtain ⟨ends, hends, hport⟩ := Option.map_eq_some_iff.mp hend
      exact ⟨ends, hends, .inr (congrArg PortRef.node hport)⟩
    · obtain ⟨ends, hends, hport⟩ := Option.map_eq_some_iff.mp hstart
      exact ⟨ends, hends, .inl (congrArg PortRef.node hport)⟩
  · rintro ⟨ends, hends, hstart | hend⟩
    · have hsource : graph.source? connection = some ends.source := by rw [source?, hends]; rfl
      rw [PortRef.eq_output (h.source_output _ _ hsource), hstart] at hsource
      exact .inr ⟨_, hsource⟩
    · have hdestination : graph.destination? connection = some ends.destination := by
        rw [destination?, hends]; rfl
      rw [PortRef.eq_input (h.destination_input _ _ hdestination), hend] at hdestination
      exact .inl ⟨_, hdestination⟩

/-- A node names as many connections as are attached to it. -/
theorem Linked.perm_attached (h : graph.Linked) (hn : graph.node? id = some node) :
    node.connectionIds.Perm (graph.attached id) :=
  (List.perm_ext_iff_of_nodup (h.nodup_connectionIds hn) (graph.nodup_attached id)).mpr fun _ =>
    h.mem_connectionIds_iff_attached hn

/-! ### The removal -/

/-- The graph without the node and without all that is attached to it. -/
def detach (graph : Graph) (id : NodeId) (name : String) : Graph :=
  (graph.cut (graph.attached id)).eraseNode id name

/-- The outcome of a removal, in either mode. -/
theorem Coherent.run_removeNode (h : graph.Coherent) (hn : graph.node? id = some node)
    (mode : RemoveMode) : (removeNode id mode).run graph =
      if mode = .strict ∧ graph.attached id ≠ [] then
        .error (.danglingConnection node.name (graph.attached id).length) graph
      else .ok (node.cut (graph.attached id)) (graph.detach id node.name) := by
  have hperm := h.linked.perm_attached hn
  have hattached : node.connectionIds ≠ [] ↔ graph.attached id ≠ [] := by
    rw [← List.length_pos_iff, ← List.length_pos_iff, hperm.length_eq]
  unfold removeNode
  rw [EStateM.run_bind, run_requireNode_of_some hn]
  change (if mode = .strict ∧ node.connectionIds ≠ [] then _ else _ : Edit Node).run graph = _
  by_cases hrefused : mode = .strict ∧ graph.attached id ≠ []
  · rw [if_pos (by rwa [hattached]), if_pos hrefused, hperm.length_eq]
    rfl
  · rw [if_neg (by rwa [hattached]), if_neg hrefused]
    have hcut := h.run_disconnectAll (h.linked.nodup_connectionIds hn)
      fun _ hmem => h.linked.isSome_of_mem_connectionIds hn hmem
    have hbare : (graph.cut node.connectionIds).node? id = some (node.cut node.connectionIds) := by
      rw [node?_cut, hn]
      rfl
    change (disconnectAll node.connectionIds >>= fun _ => check (·.requireNode id) >>= fun bare =>
      modify (·.eraseNode id bare.name) >>= fun _ => pure bare : Edit Node).run graph = _
    rw [EStateM.run_bind, hcut]
    change (check (·.requireNode id) >>= fun bare =>
      modify (·.eraseNode id bare.name) >>= fun _ => pure bare : Edit Node).run _ = _
    rw [EStateM.run_bind, run_requireNode_of_some hbare]
    have hsame : ∀ connection, connection ∈ node.connectionIds ↔ connection ∈ graph.attached id :=
      fun _ => h.linked.mem_connectionIds_iff_attached hn
    rw [detach, ← cut_congr hsame, ← node.cut_congr hsame]
    rfl

/-- What is left of the graph when a node was removed. -/
structure NodeRemoved (graph : Graph) (id : NodeId) (node : Node) (result : Graph) : Prop where
  /-- Connections that neither start nor end at the node stay, in the same order. -/
  connections : result.connections.toList =
    graph.connections.toList.filter fun entry => ¬ entry.2.Touches id
  /-- All other nodes stay, in the same order. They are what they were, but for the removed
  connections, which are filtered out of their slots and lists. -/
  nodes : result.nodes.toList = (graph.nodes.toList.filter fun entry => entry.1 ≠ id).map
    fun entry => (entry.1, entry.2.cut (graph.attached id))
  /-- The name of the node is free. -/
  freed : result.idOf? node.name = none
  /-- All other names lead where they led. -/
  names : ∀ name, name ≠ node.name → result.idOf? name = graph.idOf? name
  /-- Nodes are counted as before. -/
  nextNode : result.nextNode = graph.nextNode
  /-- Connections are counted as before. -/
  nextConnection : result.nextConnection = graph.nextConnection

theorem nodeRemoved_detach (graph : Graph) (id : NodeId) (node : Node) :
    NodeRemoved graph id node (graph.detach id node.name) where
  connections := by
    refine List.filter_congr fun entry hentry => ?_
    have hends := (graph.connections.get?_eq_some_iff entry.1 entry.2).mpr hentry
    have htouches : entry.1 ∈ graph.attached id ↔ entry.2.Touches id := by
      rw [mem_attached_iff, connection?, hends]
      simp
    simp only [htouches]
  nodes := by
    simp only [detach, eraseNode, OrderedMap.erase, cut, OrderedMap.mapValues, List.filter_map]
    rfl
  freed := by rw [detach, idOf?_eraseNode, if_pos rfl]
  names name hname := by
    rw [detach, idOf?_eraseNode, if_neg hname]
    rfl
  nextNode := rfl
  nextConnection := rfl

namespace NodeRemoved

variable (h : NodeRemoved graph id node result) {other : NodeId}
include h

/-- Another node is found without the removed connections. -/
theorem node?_of_ne (hother : other ≠ id) :
    result.node? other = (graph.node? other).map (Node.cut (graph.attached id)) := by
  have hdetach : result.nodes = (graph.detach id node.name).nodes := by
    apply OrderedMap.ext
    rw [h.nodes, (nodeRemoved_detach graph id node).nodes]
  rw [Graph.node?, hdetach]
  change ((graph.cut (graph.attached id)).eraseNode id node.name).node? other = _
  rw [node?_eraseNode, if_neg hother, node?_cut]

/-- The lists of another node are the old ones without the removed connections. -/
theorem listed_of_ne (hother : other ≠ id) (index : Nat) :
    result.listed other index = (graph.listed other index).filter (· ∉ graph.attached id) := by
  rw [listed, h.node?_of_ne hother, listed]
  cases graph.node? other with
  | none => rfl
  | some own => exact own.listed_cut index

/-- The slots of another node hold what they held, but for the removed connections. -/
theorem inputConnection?_of_ne (hother : other ≠ id) (index : Nat) :
    result.inputConnection? other index =
      (graph.inputConnection? other index).filter (· ∉ graph.attached id) := by
  rw [inputConnection?_eq, h.node?_of_ne hother, inputConnection?_eq]
  cases graph.node? other with
  | none => rfl
  | some own => exact own.feed?_cut index

end NodeRemoved

/-- The removal of a node is exact. Strict removal fails exactly if a connection of the table starts or
ends at the node, and its error tells how many do. With its connections a node can always be removed.
In either mode a removal that succeeds leaves everything else as it was. -/
theorem node_removed_exactly (h : graph.Reachable) (hn : graph.node? id = some node) :
    ((∃ error result, (removeNode id .strict).run graph = .error error result) ↔
        ∃ connection ends, graph.connection? connection = some ends ∧ ends.Touches id) ∧
      (∀ error result, (removeNode id .strict).run graph = .error error result →
        error = .danglingConnection node.name (graph.attached id).length ∧ result = graph) ∧
      (∃ value result, (removeNode id .cascade).run graph = .ok value result) ∧
      ∀ mode value result, (removeNode id mode).run graph = .ok value result →
        value = node.cut (graph.attached id) ∧ NodeRemoved graph id node result := by
  have hrun := h.coherent.run_removeNode hn
  have hattached : graph.attached id ≠ [] ↔
      ∃ connection ends, graph.connection? connection = some ends ∧ ends.Touches id := by
    simp only [← mem_attached_iff]
    exact ⟨List.exists_mem_of_ne_nil _, fun ⟨_, hmem⟩ => List.ne_nil_of_mem hmem⟩
  refine ⟨?_, fun error result hfailed => ?_,
    ⟨node.cut (graph.attached id), graph.detach id node.name, ?_⟩, fun mode value result hok => ?_⟩
  · rw [← hattached, hrun]
    by_cases hempty : graph.attached id = [] <;> simp [hempty]
  · rw [hrun] at hfailed
    split at hfailed
    · cases hfailed
      exact ⟨rfl, rfl⟩
    · cases hfailed
  · rw [hrun, if_neg (by simp)]
  · rw [hrun] at hok
    split at hok
    · cases hok
    · cases hok
      exact ⟨rfl, nodeRemoved_detach graph id node⟩

/-- A node that feeds itself once and another node twice, fed by a third node that feeds the other one,
too. -/
def hubGraph : Graph :=
  empty.afterAll
    [.addNode { opType := "Relu", name := some "hub", inputs := 2, outputs := 1 },
      .addNode { opType := "Concat", name := some "reader", inputs := 3 },
      .addNode { opType := "Parameter", name := some "data", outputs := 1 },
      .connect (.output ⟨0⟩ 0) (.input ⟨0⟩ 0), .connect (.output ⟨0⟩ 0) (.input ⟨1⟩ 0),
      .connect (.output ⟨2⟩ 0) (.input ⟨0⟩ 1), .connect (.output ⟨2⟩ 0) (.input ⟨1⟩ 1),
      .connect (.output ⟨0⟩ 0) (.input ⟨1⟩ 2)]

/-- Four connections are attached to the hub, and without it one is left. -/
theorem node_removed_exactly_hubGraph :
    (∃ error result, (removeNode ⟨0⟩ .strict).run hubGraph = .error error result ∧
      error = .danglingConnection "hub" 4) ∧
      ∃ value result, (removeNode ⟨0⟩ .cascade).run hubGraph = .ok value result ∧
        result.connections.keys = [⟨3⟩] ∧ result.listed ⟨2⟩ 0 = [⟨3⟩] ∧
          result.inputConnection? ⟨1⟩ 0 = none ∧ result.inputConnection? ⟨1⟩ 1 = some ⟨3⟩ ∧
            result.idOf? "hub" = none := by
  have hreachable : hubGraph.Reachable := reachable_of_operations _
  obtain ⟨node, hn, hname⟩ : ∃ node, hubGraph.node? ⟨0⟩ = some node ∧ node.name = "hub" :=
    Option.map_eq_some_iff.mp (by decide +kernel : (hubGraph.node? ⟨0⟩).map (·.name) = some "hub")
  obtain ⟨hrefused, herror, ⟨value, result, hrun⟩, hexact⟩ := node_removed_exactly hreachable hn
  obtain ⟨error, kept, hfailed⟩ := hrefused.mpr
    ⟨⟨0⟩, ⟨.output ⟨0⟩ 0, .input ⟨0⟩ 0⟩, by decide +kernel, by decide⟩
  obtain ⟨_, hremoved⟩ := hexact .cascade value result hrun
  refine ⟨⟨error, kept, hfailed, ?_⟩, value, result, hrun, ?_, ?_, ?_, ?_, hname ▸ hremoved.freed⟩
  · rw [(herror error kept hfailed).1, hname]
    decide +kernel
  · rw [OrderedMap.keys, hremoved.connections]
    decide +kernel
  · rw [hremoved.listed_of_ne (by decide)]
    decide +kernel
  · rw [hremoved.inputConnection?_of_ne (by decide)]
    decide +kernel
  · rw [hremoved.inputConnection?_of_ne (by decide)]
    decide +kernel

end Graph

end OpGraph
