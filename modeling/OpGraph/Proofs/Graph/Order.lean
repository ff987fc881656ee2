import Mathlib.Data.List.Induction
import Mathlib.Data.List.Perm.Subperm
import OpGraph.Graph.Order
import OpGraph.Proofs.Graph.Feed

/-!
# Topological order

The queue of the listing holds the nodes whose sources are all listed. From this invariant it
follows that every node is listed once and after its sources, and that the listing is complete
exactly if the graph has no cycle.
-/

namespace OpGraph.Graph

variable {graph changed : Graph} {id source : NodeId} {queue listed order : List NodeId}

/-- The node has an input that is fed by an output of the other one. -/
def Reads (graph : Graph) (id source : NodeId) : Prop :=
  ∃ index port, graph.inputSource? id index = some port ∧ port.node = source

/-- Nodes can be given ranks such that every node stands above those that it reads. -/
def Acyclic (graph : Graph) : Prop :=
  ∃ rank : NodeId → Nat, ∀ id source, graph.Reads id source → rank source < rank id

/-- Nodes that stand in the list after those that are listed already, each once and after all
that it reads. -/
def SourcesFirst (graph : Graph) : List NodeId → List NodeId → Prop
  | _, [] => True
  | listed, id :: rest => id ∉ listed ∧ (∀ source, graph.Reads id source → source ∈ listed) ∧
      graph.SourcesFirst (listed ++ [id]) rest

/-- What a node reads depends on the feeds alone. -/
theorem Reads.congr (h : changed.Reads id source)
    (hfeed : ∀ id index, changed.inputSource? id index = graph.inputSource? id index) :
    graph.Reads id source := by
  obtain ⟨index, port, hport, hnode⟩ := h
  exact ⟨index, port, by rw [← hfeed]; exact hport, hnode⟩

/-- Graphs with the same feeds are acyclic alike. -/
theorem Acyclic.congr (h : graph.Acyclic)
    (hfeed : ∀ id index, changed.inputSource? id index = graph.inputSource? id index) :
    changed.Acyclic := by
  obtain ⟨rank, hrank⟩ := h
  exact ⟨rank, fun id source hreads => hrank id source (hreads.congr hfeed)⟩

/-- A node that nothing reads may read one more node. -/
theorem Acyclic.extend_last (h : graph.Acyclic) {last start : NodeId} (hother : start ≠ last)
    (hlast : ∀ id, ¬ graph.Reads id last)
    (hreads : ∀ id source, changed.Reads id source →
      graph.Reads id source ∨ (id = last ∧ source = start)) : changed.Acyclic := by
  obtain ⟨rank, hrank⟩ := h
  refine ⟨fun id => if id = last then rank last + rank start + 1 else rank id, fun id source h => ?_⟩
  dsimp only
  rcases hreads id source h with hold | ⟨rfl, rfl⟩
  · have hbelow := hrank id source hold
    have hne : source ≠ last := fun heq => hlast id (heq ▸ hold)
    rw [if_neg hne]
    split
    · rename_i hid
      rw [hid] at hbelow
      omega
    · exact hbelow
  · rw [if_neg hother, if_pos rfl]
    omega

/-- No node reads itself. -/
theorem Acyclic.not_reads_self (h : graph.Acyclic) (id : NodeId) : ¬ graph.Reads id id := by
  intro hreads
  obtain ⟨rank, hrank⟩ := h
  have hlt := hrank id id hreads
  omega

/-- A node that reads nothing may be read by one more node. -/
theorem Acyclic.extend_first (h : graph.Acyclic) {first reader : NodeId} (hother : reader ≠ first)
    (hfirst : ∀ source, ¬ graph.Reads first source)
    (hreads : ∀ id source, changed.Reads id source →
      graph.Reads id source ∨ (id = reader ∧ source = first)) : changed.Acyclic := by
  obtain ⟨rank, hrank⟩ := h
  refine ⟨fun id => if id = first then 0 else rank id + 1, fun id source h => ?_⟩
  dsimp only
  rcases hreads id source h with hold | ⟨rfl, rfl⟩
  · have hbelow := hrank id source hold
    have hne : id ≠ first := fun heq => hfirst source (heq ▸ hold)
    rw [if_neg hne]
    split
    · omega
    · omega
  · rw [if_neg hother, if_pos rfl]
    omega

theorem Reads.isSome (h : graph.Reads id source) : (graph.node? id).isSome = true := by
  obtain ⟨_, _, hport, _⟩ := h
  exact node?_isSome_of_inputSource? hport

/-- A node that is read exists. -/
theorem Coherent.isSome_of_reads (h : graph.Coherent) (hreads : graph.Reads id source) :
    (graph.node? source).isSome = true := by
  obtain ⟨_, port, hport, rfl⟩ := hreads
  obtain ⟨node, hn, _⟩ := h.hasPort_of_inputSource? hport
  rw [hn]
  rfl

/-! ### Neighbours -/

/-- Nodes read their predecessors. -/
theorem mem_predecessors_iff : source ∈ graph.predecessors id ↔ graph.Reads id source := by
  unfold predecessors Reads
  cases hn : graph.node? id with
  | none =>
    constructor
    · intro hmem
      cases hmem
    · rintro ⟨index, port, hport, _⟩
      have hsome := node?_isSome_of_inputSource? hport
      rw [hn] at hsome
      cases hsome
  | some node =>
    have hslot : ∀ index, graph.inputConnection? id index =
        node.inputs[index]?.bind (·.connection) := graph.inputConnection?_of_node? hn
    simp only [List.mem_map, List.mem_filterMap, inputSource?, hslot]
    constructor
    · rintro ⟨ends, ⟨connection, ⟨port, hport, hconnection⟩, hends⟩, rfl⟩
      obtain ⟨index, hindex⟩ := List.mem_iff_getElem?.mp hport
      exact ⟨index, ends.source, by simp [hindex, hconnection, hends], rfl⟩
    · rintro ⟨index, port, hport, rfl⟩
      obtain ⟨ends, hfeed, rfl⟩ := Option.map_eq_some_iff.mp hport
      obtain ⟨connection, hconnection, hends⟩ := Option.bind_eq_some_iff.mp hfeed
      obtain ⟨input, hinput, hheld⟩ := Option.bind_eq_some_iff.mp hconnection
      exact ⟨ends, ⟨connection, ⟨input, List.mem_of_getElem? hinput, hheld⟩, hends⟩, rfl⟩

/-- A connection of the table feeds the port where it ends from the port where it starts. -/
theorem Linked.inputSource?_of_connection? (h : graph.Linked) {connection : ConnectionId}
    {ends : Connection} (hends : graph.connection? connection = some ends) :
    graph.inputSource? ends.destination.node ends.destination.index = some ends.source := by
  have hdestination : graph.destination? connection = some ends.destination := by
    rw [destination?, hends]; rfl
  have hdir := h.destination_input connection ends.destination hdestination
  rw [PortRef.eq_input hdir] at hdestination
  rw [inputSource?_eq, (h.feed_iff _ _ connection).mpr hdestination]
  simp [source?, hends]

/-- Nodes are read by their successors. -/
theorem Coherent.mem_successors_iff (h : graph.Coherent) {next : NodeId} :
    next ∈ graph.successors id ↔ graph.Reads next id := by
  unfold successors Reads
  constructor
  · intro hmem
    cases hn : graph.node? id with
    | none =>
      rw [hn] at hmem
      cases hmem
    | some node =>
      rw [hn] at hmem
      simp only [List.mem_map, List.mem_filterMap] at hmem
      obtain ⟨ends, ⟨connection, hconnection, hends⟩, rfl⟩ := hmem
      obtain ⟨port, hport, hnode⟩ := (h.mem_outgoing_iff hn connection).mp hconnection
      rw [source?, hends, Option.map_some, Option.some.injEq] at hport
      exact ⟨_, _, h.linked.inputSource?_of_connection? hends, hport ▸ hnode⟩
  · rintro ⟨index, port, hport, rfl⟩
    obtain ⟨node, hn, _⟩ := h.hasPort_of_inputSource? hport
    rw [inputSource?_eq] at hport
    obtain ⟨connection, hslot, hsource⟩ := Option.bind_eq_some_iff.mp hport
    obtain ⟨ends, hends, hstart⟩ := Option.map_eq_some_iff.mp hsource
    have hdestination := (h.linked.feed_iff _ _ connection).mp hslot
    rw [destination?, hends, Option.map_some, Option.some.injEq] at hdestination
    rw [hn]
    simp only [List.mem_map, List.mem_filterMap]
    exact ⟨ends, ⟨connection, (h.mem_outgoing_iff hn connection).mpr ⟨port, hsource, rfl⟩, hends⟩,
      by rw [hdestination]; rfl⟩

/-- Nodes without a connected input read nothing. -/
theorem Coherent.mem_roots_iff (h : graph.Coherent) :
    id ∈ graph.roots ↔ (graph.node? id).isSome = true ∧ ∀ source, ¬ graph.Reads id source := by
  have hfree : ∀ node, graph.node? id = some node →
      (node.inputs.all (·.isDisconnected) = true ↔ ∀ source, ¬ graph.Reads id source) := by
    intro node hn
    rw [List.all_eq_true]
    constructor
    · rintro hall source ⟨index, port, hport, _⟩
      rw [inputSource?_eq] at hport
      obtain ⟨connection, hslot, _⟩ := Option.bind_eq_some_iff.mp hport
      rw [inputConnection?, inputPort?, hn] at hslot
      obtain ⟨input, hinput, hheld⟩ := Option.bind_eq_some_iff.mp hslot
      have hnone := hall input (List.mem_of_getElem? hinput)
      rw [InputPort.isDisconnected, hheld] at hnone
      cases hnone
    · intro hnone input hinput
      by_contra hconnected
      have hsome : input.connection ≠ none := by simpa [InputPort.isDisconnected] using hconnected
      obtain ⟨connection, hheld⟩ := Option.ne_none_iff_exists'.mp hsome
      obtain ⟨index, hindex⟩ := List.mem_iff_getElem?.mp hinput
      have hslot : graph.inputConnection? id index = some connection := by
        rw [graph.inputConnection?_of_node? hn, Node.feed?, hindex, Option.bind_some, hheld]
      have hdestination := (h.linked.feed_iff id index connection).mp hslot
      obtain ⟨ends, hends, _⟩ := Option.map_eq_some_iff.mp hdestination
      refine hnone ends.source.node ⟨index, ends.source, ?_, rfl⟩
      rw [inputSource?_eq, hslot]
      simp [source?, hends]
  simp only [roots, List.mem_map, List.mem_filter, Prod.exists]
  constructor
  · rintro ⟨own, node, ⟨hmem, hall⟩, rfl⟩
    have hn : graph.node? own = some node := (graph.nodes.get?_eq_some_iff own node).mpr hmem
    exact ⟨by rw [hn]; rfl, (hfree node hn).mp hall⟩
  · rintro ⟨hsome, hnone⟩
    obtain ⟨node, hn⟩ := Option.isSome_iff_exists.mp hsome
    exact ⟨id, node, ⟨(graph.nodes.get?_eq_some_iff id node).mp hn, (hfree node hn).mpr hnone⟩, rfl⟩

/-! ### The listing -/

/-- The queue holds exactly the nodes that are not listed but read listed nodes only. -/
structure Frontier (graph : Graph) (queue listed : List NodeId) : Prop where
  /-- No node stands twice. -/
  nodup : (listed ++ queue).Nodup
  /-- What stands there exists. -/
  found : ∀ id ∈ listed ++ queue, (graph.node? id).isSome = true
  /-- What stands there reads listed nodes only. -/
  ready : ∀ id ∈ listed ++ queue, ∀ source, graph.Reads id source → source ∈ listed
  /-- What reads listed nodes only stands there. -/
  complete : ∀ id, (graph.node? id).isSome = true →
    (∀ source, graph.Reads id source → source ∈ listed) → id ∈ listed ++ queue

/-- The node in front of the queue is not listed. -/
theorem Frontier.notMem_head (hfrontier : graph.Frontier (id :: queue) listed) : id ∉ listed :=
  fun hmem => (List.nodup_append.mp hfrontier.nodup).2.2 id hmem id List.mem_cons_self rfl

/-- What is left when doubles are removed stands in the order of the first places. -/
theorem pairwise_idxOf_eraseDups (ids : List NodeId) :
    ids.eraseDups.Pairwise fun first second => ids.idxOf first < ids.idxOf second := by
  induction ids using List.reverseRecOn with
  | nil => simp
  | append_singleton front last ih =>
    have hfront : ∀ id ∈ front.eraseDups, (front ++ [last]).idxOf id = front.idxOf id :=
      fun id hid => List.idxOf_append_of_mem (List.mem_eraseDups.mp hid)
    rw [List.eraseDups_append]
    refine List.pairwise_append.mpr ⟨ih.imp_of_mem fun hfirst hsecond hlt => ?_, ?_, ?_⟩
    · rw [hfront _ hfirst, hfront _ hsecond]
      exact hlt
    · by_cases hlast : last ∈ front
      · simp [List.removeAll, hlast]
      · simp [List.removeAll, hlast, List.eraseDups_cons]
    · intro first hfirst second hsecond
      have hkept := List.mem_filter.mp (List.mem_eraseDups.mp hsecond)
      have hnew : second ∉ front := by simpa using hkept.2
      rw [hfront _ hfirst, List.idxOf_append_of_notMem hnew]
      have hlt := List.idxOf_lt_length_of_mem (List.mem_eraseDups.mp hfirst)
      omega

/-- The removal of doubles leaves a list without doubles. -/
theorem nodup_eraseDups (ids : List NodeId) : ids.eraseDups.Nodup := by
  refine (pairwise_idxOf_eraseDups ids).imp ?_
  rintro first second hlt rfl
  exact Nat.lt_irrefl _ hlt

theorem Coherent.mem_released_iff (h : graph.Coherent) {next : NodeId} :
    next ∈ graph.released listed id ↔
      graph.Reads next id ∧ ∀ source, graph.Reads next source → source ∈ listed := by
  unfold released
  rw [List.mem_filter, List.mem_reverse, List.mem_eraseDups, List.mem_reverse, h.mem_successors_iff,
    List.all_eq_true]
  simp only [List.contains_iff_mem, mem_predecessors_iff]

/-- In the beginning the nodes without connected inputs wait. -/
theorem Coherent.frontier_roots (h : graph.Coherent) : graph.Frontier graph.roots [] where
  nodup := by
    rw [List.nil_append]
    exact graph.nodes.nodup_keys.sublist (List.filter_sublist.map Prod.fst)
  found id hid := (h.mem_roots_iff.mp hid).1
  ready id hid source hreads := absurd hreads ((h.mem_roots_iff.mp hid).2 source)
  complete id hsome hnone := h.mem_roots_iff.mpr ⟨hsome, fun source hreads => by
    cases hnone source hreads⟩

/-- When a node is listed the nodes that it releases join the queue. -/
theorem Frontier.step (hfrontier : graph.Frontier (id :: queue) listed) (h : graph.Coherent) :
    graph.Frontier (queue ++ graph.released (listed ++ [id]) id) (listed ++ [id]) := by
  have hnew := hfrontier.notMem_head
  have hmem : ∀ next, next ∈ (listed ++ [id]) ++ (queue ++ graph.released (listed ++ [id]) id) ↔
      next ∈ listed ++ id :: queue ∨ next ∈ graph.released (listed ++ [id]) id := fun next => by
    simp only [List.mem_append, List.mem_cons, List.not_mem_nil, or_false]
    tauto
  constructor
  · have hsame : (listed ++ [id]) ++ (queue ++ graph.released (listed ++ [id]) id) =
        (listed ++ id :: queue) ++ graph.released (listed ++ [id]) id := by simp
    rw [hsame]
    refine List.nodup_append.mpr ⟨hfrontier.nodup, ?_, ?_⟩
    · exact (List.nodup_reverse.mpr (nodup_eraseDups _)).sublist List.filter_sublist
    · rintro next hnext other hother rfl
      have hreads := (h.mem_released_iff.mp hother).1
      exact hnew (hfrontier.ready next hnext id hreads)
  · intro next hnext
    rcases (hmem next).mp hnext with hold | hreleased
    · exact hfrontier.found next hold
    · exact (h.mem_released_iff.mp hreleased).1.isSome
  · intro next hnext source hreads
    rcases (hmem next).mp hnext with hold | hreleased
    · exact List.mem_append_left _ (hfrontier.ready next hold source hreads)
    · exact (h.mem_released_iff.mp hreleased).2 source hreads
  · intro next hsome hsources
    by_cases hreads : graph.Reads next id
    · exact (hmem next).mpr (.inr (h.mem_released_iff.mpr ⟨hreads, hsources⟩))
    · refine (hmem next).mpr (.inl (hfrontier.complete next hsome fun source hsource => ?_))
      rcases List.mem_append.mp (hsources source hsource) with hold | hlast
      · exact hold
      · exact absurd (List.mem_singleton.mp hlast ▸ hsource) hreads

/-- There are no more nodes listed or waiting than nodes. -/
theorem Frontier.length_le (hfrontier : graph.Frontier queue listed) :
    (listed ++ queue).length ≤ graph.nodes.size := by
  have hsub : listed ++ queue ⊆ graph.nodes.keys := fun id hid =>
    (graph.nodes.mem_keys_iff id).mpr (hfrontier.found id hid)
  have hle := (List.subperm_of_subset hfrontier.nodup hsub).length_le
  simpa [OrderedMap.size, OrderedMap.keys] using hle

/-- When nothing waits any more, as many nodes are listed as there are exactly if all are listed. -/
theorem Frontier.length_eq_iff (hend : graph.Frontier [] order) :
    order.length = graph.nodes.size ↔ ∀ id, (graph.node? id).isSome = true → id ∈ order := by
  have hnodup : order.Nodup := by simpa using hend.nodup
  have hsub : order ⊆ graph.nodes.keys := fun id hid =>
    (graph.nodes.mem_keys_iff id).mpr (hend.found id (by simpa using hid))
  constructor
  · intro hlength id hsome
    have hperm := (List.subperm_of_subset hnodup hsub).perm_of_length_le
      (by simp [hlength, OrderedMap.size, OrderedMap.keys])
    exact hperm.mem_iff.mpr ((graph.nodes.mem_keys_iff id).mpr hsome)
  · intro hall
    have hback : graph.nodes.keys ⊆ order := fun id hid =>
      hall id ((graph.nodes.mem_keys_iff id).mp hid)
    have hperm := (List.perm_ext_iff_of_nodup hnodup graph.nodes.nodup_keys).mpr fun id =>
      ⟨fun hid => hsub hid, fun hid => hback hid⟩
    rw [hperm.length_eq, List.length_map, OrderedMap.size]

/-- With a step left for each node that is not listed the listing ends when nothing waits. -/
theorem Frontier.listFrom (hfrontier : graph.Frontier queue listed) (h : graph.Coherent)
    (steps : Nat) (hsteps : graph.nodes.size ≤ listed.length + steps) :
    ∃ order, graph.listFrom steps queue listed = listed ++ order ∧
      graph.SourcesFirst listed order ∧ graph.Frontier [] (listed ++ order) := by
  induction steps generalizing queue listed with
  | zero =>
    have hle := hfrontier.length_le
    rw [List.length_append] at hle
    have hnil : queue = [] := List.length_eq_zero_iff.mp (by omega)
    subst hnil
    exact ⟨[], by simp [Graph.listFrom], trivial, by simpa using hfrontier⟩
  | succ steps ih =>
    cases queue with
    | nil => exact ⟨[], by simp [Graph.listFrom], trivial, by simpa using hfrontier⟩
    | cons id rest =>
      have hlength : graph.nodes.size ≤ (listed ++ [id]).length + steps := by
        rw [List.length_append, List.length_singleton]
        omega
      obtain ⟨order, horder, hsources, hend⟩ := ih (hfrontier.step h) hlength
      refine ⟨id :: order, ?_, ⟨hfrontier.notMem_head, hfrontier.ready id (by simp), hsources⟩, ?_⟩
      · simpa [Graph.listFrom] using horder
      · simpa using hend

/-! ### Orders of acyclic graphs -/

/-- In an order that starts with listed nodes every other node stands above what it reads. -/
theorem SourcesFirst.idxOf_lt (horder : graph.SourcesFirst listed order) (hid : id ∈ order)
    (hreads : graph.Reads id source) : (listed ++ order).idxOf source < (listed ++ order).idxOf id := by
  induction order generalizing listed with
  | nil => cases hid
  | cons head rest ih =>
    obtain ⟨hnew, hready, hrest⟩ := horder
    have hsame : listed ++ head :: rest = (listed ++ [head]) ++ rest := by simp
    by_cases hhead : id = head
    · subst hhead
      have hsource := hready source hreads
      rw [List.idxOf_append_of_mem hsource, List.idxOf_append_of_notMem hnew]
      have hlt := List.idxOf_lt_length_of_mem hsource
      omega
    · rw [hsame]
      exact ih hrest (List.mem_of_ne_of_mem hhead hid)

/-- The order is the listing of all nodes, and an error names the nodes that it lacks. -/
theorem Coherent.exists_listing (h : graph.Coherent) :
    ∃ order, graph.SourcesFirst [] order ∧ graph.Frontier [] order ∧
      graph.topologicalOrder =
        if order.length = graph.nodes.size then .ok order
        else .error (.validationFailed (.cycle
          ((graph.nodes.toList.filter fun (id, _) => !order.contains id).map
            fun (_, node) => node.name))) := by
  obtain ⟨order, horder, hsources, hend⟩ := h.frontier_roots.listFrom h graph.nodes.size (by simp)
  rw [List.nil_append] at horder hend
  exact ⟨order, hsources, hend, by unfold topologicalOrder; rw [horder]⟩

/-- A successful listing holds every node once and after its sources. -/
theorem Coherent.sourcesFirst_of_order (h : graph.Coherent)
    (horder : graph.topologicalOrder = .ok order) :
    graph.SourcesFirst [] order ∧ ∀ id, id ∈ order ↔ (graph.node? id).isSome = true := by
  obtain ⟨listing, hsources, hend, hlisting⟩ := h.exists_listing
  rw [hlisting] at horder
  split at horder
  · rename_i hlength
    cases horder
    exact ⟨hsources, fun id => ⟨fun hid => hend.found id (by simpa using hid),
      hend.length_eq_iff.mp hlength id⟩⟩
  · cases horder

/-- A graph without a cycle has an order. -/
theorem Coherent.exists_order (h : graph.Coherent) (hacyclic : graph.Acyclic) :
    ∃ order, graph.topologicalOrder = .ok order := by
  obtain ⟨order, _, hend, hlisting⟩ := h.exists_listing
  obtain ⟨rank, hrank⟩ := hacyclic
  have hall : ∀ bound id, rank id < bound → (graph.node? id).isSome = true → id ∈ order := by
    intro bound
    induction bound with
    | zero => exact fun id hlt => absurd hlt (Nat.not_lt_zero _)
    | succ bound ih =>
      intro id hlt hsome
      have hmem := hend.complete id hsome fun source hreads => by
        have hbelow := hrank id source hreads
        exact ih source (by omega) (h.isSome_of_reads hreads)
      simpa using hmem
  have hlength := hend.length_eq_iff.mpr fun id => hall _ id (Nat.lt_succ_self _)
  exact ⟨order, by rw [hlisting, if_pos hlength]⟩

end OpGraph.Graph
