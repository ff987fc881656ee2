import OpGraph.Proofs.Graph.Hide
import OpGraph.Proofs.Graph.Spared

/-!
# Graphs without some of their connections

To cut connections is to take them out of the table, out of all lists and out of all slots, wherever
they stand. Everything else stays, and so do all orders. The removal of a connection looks at the two
ports that the table names and no further; where the records agree this is the same as cutting it, so
removals one after another come to one cut.
-/

namespace OpGraph

namespace OrderedMap

variable {κ α : Type} [DecidableEq κ] {m m' : OrderedMap κ α}

/-- The entries, read off the keys. -/
theorem toList_eq_filterMap (m : OrderedMap κ α) :
    m.toList = m.keys.filterMap fun key => (m.get? key).map (key, ·) := by
  unfold keys
  rw [List.filterMap_map]
  conv_lhs => rw [← List.filterMap_some (l := m.toList)]
  refine List.filterMap_congr fun entry hentry => ?_
  rw [Function.comp_apply, (m.get?_eq_some_iff entry.1 entry.2).mpr hentry]
  rfl

/-- Maps with the same keys in the same order and the same values are the same. -/
theorem ext_get? (hkeys : m.keys = m'.keys) (hget : ∀ key, m.get? key = m'.get? key) : m = m' := by
  apply ext
  rw [toList_eq_filterMap, toList_eq_filterMap, hkeys]
  exact List.filterMap_congr fun key _ => by rw [hget]

/-- The map without the entries of some keys. -/
def without (m : OrderedMap κ α) (gone : List κ) : OrderedMap κ α where
  toList := m.toList.filter fun entry => entry.1 ∉ gone
  nodup_keys := m.nodup_keys.sublist (List.filter_sublist.map Prod.fst)

theorem keys_without (m : OrderedMap κ α) (gone : List κ) :
    (m.without gone).keys = m.keys.filter (· ∉ gone) := by
  simp only [keys, without, List.filter_map]
  rfl

theorem get?_without (m : OrderedMap κ α) (gone : List κ) (key : κ) :
    (m.without gone).get? key = if key ∈ gone then none else m.get? key := by
  apply Option.ext
  intro value
  rw [get?_eq_some_iff]
  by_cases hkey : key ∈ gone
  · simp [without, hkey]
  · simp [without, hkey, ← get?_eq_some_iff]

/-- A removal is that of one key. -/
theorem erase_eq_without (m : OrderedMap κ α) (key : κ) : m.erase key = m.without [key] := by
  apply ext
  simp only [erase, without, List.mem_singleton]

theorem without_nil (m : OrderedMap κ α) : m.without [] = m := by
  apply ext
  simp [without]

/-- What goes in two steps goes in one. -/
theorem without_without (m : OrderedMap κ α) (gone gone' : List κ) :
    (m.without gone).without gone' = m.without (gone ++ gone') := by
  apply ext
  simp only [without, List.filter_filter, List.mem_append, not_or, Bool.decide_and]
  exact List.filter_congr fun _ _ => Bool.and_comm _ _

/-- The order in which the keys are named does not matter. -/
theorem without_congr {gone gone' : List κ} (h : ∀ key, key ∈ gone ↔ key ∈ gone') :
    m.without gone = m.without gone' := by
  apply ext
  simp only [without, h]

/-- A change of a value that goes does not matter. -/
theorem without_modify (m : OrderedMap κ α) {gone : List κ} {key : κ} (hkey : key ∈ gone)
    (f : α → α) : (m.modify key f).without gone = m.without gone := by
  refine ext_get? ?_ fun other => ?_
  · rw [keys_without, keys_without, keys_modify]
  · rw [get?_without, get?_without, get?_modify]
    by_cases hother : other ∈ gone
    · rw [if_pos hother, if_pos hother]
    · have hne : other ≠ key := fun heq => hother (heq ▸ hkey)
      rw [if_neg hne]

/-- A new entry that goes again leaves the map as it was. -/
theorem without_insert {key : κ} (hnew : m.get? key = none) (value : α) :
    (m.insert key value).without [key] = m := by
  refine ext_get? ?_ fun other => ?_
  · have hfree := (m.contains_eq_false_iff key).mpr hnew
    have hkeys : m.keys.filter (· ∉ [key]) = m.keys := by
      refine List.filter_eq_self.mpr fun other hother => ?_
      rw [contains, List.contains_eq_mem, decide_eq_false_iff_not] at hfree
      have hne : other ≠ key := fun heq => hfree (heq ▸ hother)
      simpa using hne
    rw [keys_without, keys_insert, if_neg (by simp [hfree]), List.filter_append, hkeys]
    simp
  · rw [get?_without, get?_insert]
    by_cases hother : other = key
    · simp [hother, hnew]
    · simp [hother]

end OrderedMap

namespace Node

variable {gone : List ConnectionId}

/-- The node without some connections in its slots and lists. -/
def cut (gone : List ConnectionId) (node : Node) : Node :=
  { node with
    inputs := node.inputs.map fun port =>
      { port with connection := port.connection.filter (· ∉ gone) }
    outputs := node.outputs.map fun port =>
      { port with connections := port.connections.filter (· ∉ gone) } }

@[simp] theorem bare_cut (node : Node) : (node.cut gone).bare = node.bare := by
  simp only [bare, cut, List.map_map]
  rfl

@[simp] theorem feed?_cut (node : Node) (index : Nat) :
    (node.cut gone).feed? index = (node.feed? index).filter (· ∉ gone) := by
  simp only [feed?, cut, List.getElem?_map]
  cases node.inputs[index]? <;> rfl

@[simp] theorem listed_cut (node : Node) (index : Nat) :
    (node.cut gone).listed index = (node.listed index).filter (· ∉ gone) := by
  simp only [listed, cut, List.getElem?_map]
  cases node.outputs[index]? <;> rfl

end Node

namespace Graph

variable {graph other : Graph} {gone gone' : List ConnectionId} {id : ConnectionId}
  {ends : Connection} {port source destination : PortRef}

/-- Graphs in which all look-ups find the same, and the same in the same order, are equal. -/
theorem eq_of_look_ups (hkeys : graph.nodes.keys = other.nodes.keys)
    (hbare : ∀ id, graph.bare? id = other.bare? id)
    (hfeed : ∀ id index, graph.inputConnection? id index = other.inputConnection? id index)
    (hlisted : ∀ id index, graph.listed id index = other.listed id index)
    (hconnections : graph.connections = other.connections) (hnames : graph.names = other.names)
    (hnode : graph.nextNode = other.nextNode)
    (hconnection : graph.nextConnection = other.nextConnection) : graph = other := by
  refine eq_of_records (OrderedMap.ext_get? hkeys fun id => ?_) hconnections hnames hnode hconnection
  change graph.node? id = other.node? id
  have hsame := hbare id
  cases hn : graph.node? id with
  | none =>
    rw [bare?, hn] at hsame
    exact (Option.map_eq_none_iff.mp hsame.symm).symm
  | some node =>
    rw [bare?_of_node? hn] at hsame
    obtain ⟨now, hnow, heq⟩ := Option.map_eq_some_iff.mp hsame.symm
    rw [hnow, Option.some.injEq]
    refine Node.eq_of_bare heq.symm (fun index => ?_) fun index => ?_
    · rw [← graph.inputConnection?_of_node? hn, ← other.inputConnection?_of_node? hnow, hfeed]
    · rw [← graph.listed_of_node? hn, ← other.listed_of_node? hnow, hlisted]

/-! ### Cuts -/

/-- The graph without some connections. -/
def cut (gone : List ConnectionId) (graph : Graph) : Graph :=
  { graph with
    nodes := graph.nodes.mapValues fun _ => Node.cut gone
    connections := graph.connections.without gone }

theorem node?_cut (gone : List ConnectionId) (graph : Graph) (id : NodeId) :
    (graph.cut gone).node? id = (graph.node? id).map (Node.cut gone) :=
  graph.nodes.get?_mapValues (fun _ => Node.cut gone) id

@[simp] theorem keys_nodes_cut : (graph.cut gone).nodes.keys = graph.nodes.keys :=
  OrderedMap.keys_mapValues _ _

@[simp] theorem bare?_cut (id : NodeId) : (graph.cut gone).bare? id = graph.bare? id := by
  rw [bare?, node?_cut, Option.map_map, bare?]
  congr 1
  funext node
  exact node.bare_cut

@[simp] theorem inputConnection?_cut (id : NodeId) (index : Nat) :
    (graph.cut gone).inputConnection? id index =
      (graph.inputConnection? id index).filter (· ∉ gone) := by
  rw [inputConnection?_eq, inputConnection?_eq, node?_cut]
  cases graph.node? id with
  | none => rfl
  | some node => exact node.feed?_cut index

@[simp] theorem listed_cut (id : NodeId) (index : Nat) :
    (graph.cut gone).listed id index = (graph.listed id index).filter (· ∉ gone) := by
  rw [listed, node?_cut, listed]
  cases graph.node? id with
  | none => rfl
  | some node => exact node.listed_cut index

theorem connection?_cut (gone : List ConnectionId) (graph : Graph) (id : ConnectionId) :
    (graph.cut gone).connection? id = if id ∈ gone then none else graph.connection? id :=
  graph.connections.get?_without gone id

/-- Without a cut everything stays. -/
theorem cut_nil (graph : Graph) : graph.cut [] = graph := by
  refine eq_of_look_ups keys_nodes_cut (fun _ => bare?_cut _) (fun _ _ => ?_) (fun _ _ => ?_)
    graph.connections.without_nil rfl rfl rfl
  · rw [inputConnection?_cut]
    cases graph.inputConnection? _ _ <;> rfl
  · rw [listed_cut]
    exact List.filter_eq_self.mpr fun _ _ => rfl

/-- Two cuts are one. -/
theorem cut_cut (gone gone' : List ConnectionId) (graph : Graph) :
    (graph.cut gone).cut gone' = graph.cut (gone ++ gone') := by
  have hmem : ∀ id, decide (id ∉ gone ++ gone') = (decide (id ∉ gone) && decide (id ∉ gone')) := by
    intro id
    simp only [List.mem_append, not_or, Bool.decide_and]
  refine eq_of_look_ups (by simp only [keys_nodes_cut]) (fun _ => by simp only [bare?_cut])
    (fun _ _ => ?_) (fun _ _ => ?_) (graph.connections.without_without gone gone') rfl rfl rfl
  · simp only [inputConnection?_cut, Option.filter_filter, hmem]
  · simp only [listed_cut, List.filter_filter, hmem]
    exact List.filter_congr fun _ _ => Bool.and_comm _ _

/-- The order in which the connections are named does not matter. -/
theorem cut_congr (h : ∀ id, id ∈ gone ↔ id ∈ gone') (graph : Graph) :
    graph.cut gone = graph.cut gone' := by
  refine eq_of_look_ups (by simp only [keys_nodes_cut]) (fun _ => by simp only [bare?_cut])
    (fun _ _ => ?_) (fun _ _ => ?_) (OrderedMap.without_congr h) rfl rfl rfl
  · simp only [inputConnection?_cut, h]
  · simp only [listed_cut, h]

/-! ### Cuts and single changes -/

/-- The cut of one connection leaves the slots that hold another one or none. -/
theorem filter_slot_of_ne {slot : Option ConnectionId} (hslot : slot ≠ some id) :
    slot.filter (· ∉ [id]) = slot := by
  cases slot with
  | none => rfl
  | some held => simpa using hslot

/-- The cut of one connection leaves the lists without it. -/
theorem filter_list_of_notMem {listed : List ConnectionId} (hlisted : id ∉ listed) :
    listed.filter (· ∉ [id]) = listed := by
  refine List.filter_eq_self.mpr fun held hheld => ?_
  have hne : held ≠ id := fun heq => hlisted (heq ▸ hheld)
  simpa using hne

namespace Linked

variable (h : graph.Linked) (hends : graph.connection? id = some ends)
include h hends

/-- One port lists a connection of the table. -/
theorem mem_listed_iff (node : NodeId) (index : Nat) :
    id ∈ graph.listed node index ↔ node = ends.source.node ∧ index = ends.source.index := by
  have hsource : graph.source? id = some ends.source := by rw [source?, hends]; rfl
  have hport := PortRef.eq_output (h.source_output id ends.source hsource)
  rw [h.listed_iff, hsource, hport, Option.some.injEq]
  simp [PortRef.output, eq_comm]

/-- One slot holds a connection of the table. -/
theorem inputConnection?_eq_iff (node : NodeId) (index : Nat) :
    graph.inputConnection? node index = some id ↔
      node = ends.destination.node ∧ index = ends.destination.index := by
  have hdestination : graph.destination? id = some ends.destination := by
    rw [destination?, hends]; rfl
  have hport := PortRef.eq_input (h.destination_input id ends.destination hdestination)
  rw [h.feed_iff, hdestination, hport, Option.some.injEq]
  simp [PortRef.input, eq_comm]

/-- The removal of a connection is a cut. -/
theorem eraseConnection_eq_cut : graph.eraseConnection id ends = graph.cut [id] := by
  have hdestination : graph.destination? id = some ends.destination := by
    rw [destination?, hends]; rfl
  refine eq_of_look_ups ?_ (fun _ => by simp) (fun node index => ?_) (fun node index => ?_)
    (graph.connections.erase_eq_without id) rfl rfl rfl
  · simp [Graph.eraseConnection, setFeed, modifyInput, detachSource, modifyOutput, modifyNode]
  · have hslot := h.inputConnection?_eq_iff hends node index
    rw [inputConnection?_eraseConnection (h.hasPort_destination hdestination)
      (h.destination_input id _ hdestination), inputConnection?_cut]
    split
    · rename_i hhere
      rw [hslot.mpr hhere, Option.filter_some, if_neg (by simp)]
    · rename_i hhere
      rw [filter_slot_of_ne (hslot.not.mpr hhere)]
  · have hlisted := h.mem_listed_iff hends node index
    rw [listed_eraseConnection, listed_cut]
    split
    · simp only [List.mem_singleton]
    · rename_i hhere
      rw [filter_list_of_notMem (hlisted.not.mpr hhere)]

/-- Where a connection ends does not show once it is cut. -/
theorem cut_moveDestination (hdir : port.direction = .input) (hport : graph.HasPort port)
    (hfree : graph.inputConnection? port.node port.index = none) :
    (graph.moveDestination id ends.destination port).cut [id] = graph.cut [id] := by
  have hdestination : graph.destination? id = some ends.destination := by
    rw [destination?, hends]; rfl
  refine eq_of_look_ups ?_ (fun _ => by simp) (fun node index => ?_) (fun node index => by simp)
    (graph.connections.without_modify (by simp) _) rfl rfl rfl
  · rw [keys_nodes_cut, keys_nodes_cut]
    simp [Graph.moveDestination, setFeed, modifyInput, modifyNode]
  · have hslot := h.inputConnection?_eq_iff hends node index
    rw [inputConnection?_cut, inputConnection?_cut,
      inputConnection?_moveDestination (h.hasPort_destination hdestination) hport
        (h.destination_input id _ hdestination) hdir]
    split
    · rename_i hhere
      rw [hhere.1, hhere.2, hfree]
      simp
    · split
      · rename_i hhere
        rw [hslot.mpr hhere, Option.filter_some, if_neg (by simp)]
        rfl
      · rfl

/-- Where a connection starts does not show once it is cut. -/
theorem cut_moveSource (hdir : port.direction = .output) (hport : graph.HasPort port)
    (hother : port ≠ ends.source) :
    (graph.moveSource id ends.source port).cut [id] = graph.cut [id] := by
  have hsource : graph.source? id = some ends.source := by rw [source?, hends]; rfl
  have hne := PortRef.not_same_place hdir (h.source_output id _ hsource) hother
  refine eq_of_look_ups ?_ (fun _ => by simp) (fun node index => by simp) (fun node index => ?_)
    (graph.connections.without_modify (by simp) _) rfl rfl rfl
  · rw [keys_nodes_cut, keys_nodes_cut]
    simp [Graph.moveSource, attachSource, detachSource, modifyOutput, modifyNode]
  · rw [listed_cut, listed_cut, listed_moveSource hport hdir hne]
    split
    · simp
    · split
      · simp
      · rfl

/-- A connection of the table can be removed, which cuts it. -/
theorem run_disconnect : (Edit.disconnect id).run graph = .ok ends (graph.cut [id]) :=
  Edit.run_disconnect_eq_ok.mpr ⟨hends, (h.eraseConnection_eq_cut hends).symm⟩

end Linked

namespace Coherent

variable (h : graph.Coherent)
include h

/-- The records agree without a connection. -/
theorem cut (hends : graph.connection? id = some ends) : (graph.cut [id]).Coherent :=
  h.linked.eraseConnection_eq_cut hends ▸ h.change (.eraseConnection hends)

/-- A new connection that is cut leaves the graph as it was, but its number is used up. -/
theorem cut_insertConnection (hcheck : graph.checkConnect source destination = .ok ()) :
    (graph.insertConnection source destination).cut [⟨graph.nextConnection⟩] =
      { graph with nextConnection := graph.nextConnection + 1 } := by
  obtain ⟨hdirSource, hdirDestination, hportSource, hportDestination, hfree⟩ :=
    (graph.checkConnect_eq_ok_iff source destination).mp hcheck
  have hnew : ∀ port, graph.source? ⟨graph.nextConnection⟩ ≠ some port ∧
      graph.destination? ⟨graph.nextConnection⟩ ≠ some port := fun port => by
    simp [source?, destination?, h.connection?_next]
  refine eq_of_look_ups ?_ (fun node => ?_) (fun node index => ?_) (fun node index => ?_)
    (OrderedMap.without_insert h.connection?_next _) rfl rfl rfl
  · rw [keys_nodes_cut]
    simp [insertConnection, setFeed, modifyInput, attachSource, modifyOutput, modifyNode]
  · rw [bare?_cut, bare?_insertConnection]
    rfl
  · have hslot := (h.linked.feed_iff node index ⟨graph.nextConnection⟩).not.mpr (hnew _).2
    rw [inputConnection?_cut, inputConnection?_insertConnection hportDestination hdirDestination]
    change _ = graph.inputConnection? node index
    split
    · rename_i hhere
      rw [hhere.1, hhere.2, hfree]
      simp
    · exact filter_slot_of_ne hslot
  · have hlisted := (h.linked.listed_iff node index ⟨graph.nextConnection⟩).not.mpr (hnew _).1
    rw [listed_cut, listed_insertConnection hportSource hdirSource]
    change _ = graph.listed node index
    split
    · rw [List.filter_append, filter_list_of_notMem hlisted]
      simp
    · exact filter_list_of_notMem hlisted

/-- Connections that exist can be removed one after another, which cuts them all. -/
theorem run_disconnectAll {connections : List ConnectionId} (hnodup : connections.Nodup)
    (hsome : ∀ id ∈ connections, (graph.connection? id).isSome = true) :
    (Edit.disconnectAll connections).run graph = .ok ⟨⟩ (graph.cut connections) := by
  induction connections generalizing graph with
  | nil => rw [cut_nil]; rfl
  | cons head tail ih =>
    obtain ⟨hhead, htail⟩ := List.nodup_cons.mp hnodup
    obtain ⟨ends, hends⟩ := Option.isSome_iff_exists.mp (hsome head (by simp))
    have hrest := ih (h.cut hends) htail fun id hid => by
      rw [connection?_cut, if_neg (by rintro hmem; exact hhead (List.mem_singleton.mp hmem ▸ hid))]
      exact hsome id (List.mem_cons_of_mem head hid)
    rw [cut_cut] at hrest
    refine Edit.run_bind_eq_ok.mpr ⟨⟨⟩, graph.cut [head], ?_, hrest⟩
    exact Edit.run_discard_eq_ok.mpr ⟨ends, h.linked.run_disconnect hends⟩

end Coherent

end Graph

end OpGraph
