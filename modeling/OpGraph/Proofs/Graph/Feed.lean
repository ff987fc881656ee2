import OpGraph.Pass.OutputMarker
import OpGraph.Proofs.Graph.Change

/-!
# What feeds an input port

In a coherent graph an input port is fed by the start of the connection in its slot, and an
output port lists a connection exactly if it feeds something. The equations of this module say
what feeds a port after each change. Together with the bare nodes this is all that the meaning
of a graph depends on.
-/

namespace OpGraph.Graph

variable {graph changed : Graph} {id : NodeId} {connection : ConnectionId}
  {source destination port : PortRef}

/-- Some input port is fed by the port. -/
def Feeds (graph : Graph) (port : PortRef) : Prop :=
  ∃ node index, graph.inputSource? node index = some port

/-- The name of a node shows on the bare node. -/
theorem nameOf?_eq_bare? (graph : Graph) (id : NodeId) :
    graph.nameOf? id = (graph.bare? id).map (·.name) := by
  unfold nameOf? bare?
  cases graph.node? id <;> rfl

/-- A node with a port that is fed exists. -/
theorem node?_isSome_of_inputSource? {node : NodeId} {index : Nat}
    (h : graph.inputSource? node index = some port) : (graph.node? node).isSome = true := by
  rw [inputSource?_eq, inputConnection?_eq] at h
  cases hn : graph.node? node with
  | none =>
    rw [hn] at h
    cases h
  | some _ => rfl

/-- A port that is fed is one of the input ports of its node. -/
theorem lt_of_inputSource? {node : NodeId} {index : Nat} {bare : Node}
    (h : graph.inputSource? node index = some port) (hbare : graph.bare? node = some bare) :
    index < bare.inputs.length := by
  rw [inputSource?_eq] at h
  obtain ⟨_, hslot, _⟩ := Option.bind_eq_some_iff.mp h
  obtain ⟨own, hown, hlt⟩ := hasPort_iff_bare?.mp (hasPort_of_inputConnection? hslot)
  change graph.bare? node = some own at hown
  rw [hbare, Option.some.injEq] at hown
  exact hown ▸ hlt

/-- A port with a connection in its slot is fed by something. -/
theorem Coherent.isSome_inputSource? (h : graph.Coherent) {node : NodeId} {index : Nat}
    (hslot : graph.inputConnection? node index = some connection) :
    (graph.inputSource? node index).isSome = true := by
  obtain ⟨ends, hends, _⟩ := Option.map_eq_some_iff.mp ((h.linked.feed_iff node index connection).mp hslot)
  rw [inputSource?_eq, hslot, Option.bind_some, source?, hends]
  rfl

/-- A port that feeds something exists. -/
theorem Coherent.hasPort_of_inputSource? (h : graph.Coherent) {node : NodeId} {index : Nat}
    (hsource : graph.inputSource? node index = some port) : graph.HasPort port := by
  rw [inputSource?_eq] at hsource
  obtain ⟨_, _, hstart⟩ := Option.bind_eq_some_iff.mp hsource
  exact h.linked.hasPort_source hstart

/-- What feeds an input port is an output port. -/
theorem Coherent.direction_of_inputSource? (h : graph.Coherent) {node : NodeId} {index : Nat}
    (hsource : graph.inputSource? node index = some port) : port.direction = .output := by
  rw [inputSource?_eq] at hsource
  obtain ⟨connection, _, hstart⟩ := Option.bind_eq_some_iff.mp hsource
  exact h.linked.source_output connection port hstart

/-- The connections of the outputs of a node are those that start at it. -/
theorem Coherent.mem_outgoing_iff (h : graph.Coherent) {node : Node}
    (hn : graph.node? id = some node) (connection : ConnectionId) :
    connection ∈ node.outputs.flatMap (·.connections) ↔
      ∃ port, graph.source? connection = some port ∧ port.node = id := by
  simp only [List.mem_flatMap]
  constructor
  · rintro ⟨output, houtput, hmem⟩
    obtain ⟨index, hindex⟩ := List.mem_iff_getElem?.mp houtput
    have hlisted : connection ∈ graph.listed id index := by
      rw [graph.listed_of_node? hn]
      exact Node.mem_listed.mpr ⟨output, hindex, hmem⟩
    exact ⟨_, (h.linked.listed_iff id index connection).mp hlisted, rfl⟩
  · rintro ⟨port, hport, rfl⟩
    rw [PortRef.eq_output (h.linked.source_output connection port hport)] at hport
    have hlisted := (h.linked.listed_iff _ _ connection).mpr hport
    rw [graph.listed_of_node? hn] at hlisted
    obtain ⟨output, hindex, hmem⟩ := Node.mem_listed.mp hlisted
    exact ⟨output, List.mem_of_getElem? hindex, hmem⟩

/-- The connections in the slots of a node are those that end at it. -/
theorem Coherent.mem_incoming_iff (h : graph.Coherent) {node : Node}
    (hn : graph.node? id = some node) (connection : ConnectionId) :
    connection ∈ node.inputs.filterMap (·.connection) ↔
      ∃ port, graph.destination? connection = some port ∧ port.node = id := by
  rw [List.mem_filterMap]
  constructor
  · rintro ⟨input, hinput, hheld⟩
    obtain ⟨index, hindex⟩ := List.mem_iff_getElem?.mp hinput
    refine ⟨_, (h.linked.feed_iff id index connection).mp ?_, rfl⟩
    rw [graph.inputConnection?_of_node? hn, Node.feed?, hindex]
    exact hheld
  · rintro ⟨port, hport, rfl⟩
    rw [PortRef.eq_input (h.linked.destination_input connection port hport)] at hport
    have hheld := (h.linked.feed_iff _ _ connection).mpr hport
    rw [graph.inputConnection?_of_node? hn] at hheld
    obtain ⟨input, hindex, hheld⟩ := Option.bind_eq_some_iff.mp hheld
    exact ⟨input, List.mem_of_getElem? hindex, hheld⟩

/-! ### After a change -/

theorem Coherent.inputSource?_insertNode (h : graph.Coherent) (desc : NodeDesc) (node : NodeId)
    (index : Nat) : (graph.insertNode desc).inputSource? node index = graph.inputSource? node index := by
  rw [inputSource?_eq, inputSource?_eq, graph.inputConnection?_insertNode desc h.registered.node?_next]
  rfl

theorem inputSource?_modifyNode {f : Node → Node} (hf : Node.Neutral f) (node : NodeId)
    (index : Nat) : (graph.modifyNode id f).inputSource? node index = graph.inputSource? node index := by
  rw [inputSource?_eq, inputSource?_eq, graph.inputConnection?_modifyNode hf.feed]
  rfl

@[simp] theorem inputSource?_rename (old new : String) (node : NodeId) (index : Nat) :
    (graph.rename id old new).inputSource? node index = graph.inputSource? node index := by
  rw [inputSource?_eq, inputSource?_eq, inputConnection?_rename]
  rfl

theorem inputSource?_eraseNode (name : String) (node : NodeId) (index : Nat) :
    (graph.eraseNode id name).inputSource? node index =
      if node = id then none else graph.inputSource? node index := by
  rw [inputSource?_eq, inputSource?_eq, inputConnection?_eraseNode]
  split <;> rfl

/-- A new connection feeds its destination and nothing else. -/
theorem Coherent.inputSource?_insertConnection (h : graph.Coherent)
    (hcheck : graph.checkConnect source destination = .ok ()) (node : NodeId) (index : Nat) :
    (graph.insertConnection source destination).inputSource? node index =
      if node = destination.node ∧ index = destination.index then some source
      else graph.inputSource? node index := by
  obtain ⟨_, hdir, _, hport, _⟩ := (graph.checkConnect_eq_ok_iff source destination).mp hcheck
  rw [inputSource?_eq, inputSource?_eq, inputConnection?_insertConnection hport hdir]
  split
  · simp [source?_insertConnection]
  · cases hslot : graph.inputConnection? node index with
    | none => rfl
    | some feed =>
      have hne : feed ≠ ⟨graph.nextConnection⟩ := by
        rintro rfl
        have hdest := (h.linked.feed_iff node index _).mp hslot
        rw [destination?, h.connection?_next] at hdest
        cases hdest
      simp [source?_insertConnection, hne]

/-- A removed connection feeds nothing any more. -/
theorem Coherent.inputSource?_eraseConnection (h : graph.Coherent) {ends : Connection}
    (hends : graph.connection? connection = some ends) (node : NodeId) (index : Nat) :
    (graph.eraseConnection connection ends).inputSource? node index =
      if graph.inputConnection? node index = some connection then none
      else graph.inputSource? node index := by
  have hdestination : graph.destination? connection = some ends.destination := by
    rw [destination?, hends]; rfl
  have hdir := h.linked.destination_input connection ends.destination hdestination
  have hslot := h.linked.feed_iff node index connection
  rw [inputSource?_eq, inputSource?_eq,
    inputConnection?_eraseConnection (h.linked.hasPort_destination hdestination) hdir]
  by_cases hfeed : graph.inputConnection? node index = some connection
  · have hport := Option.some.inj ((hslot.mp hfeed).symm.trans hdestination)
    rw [if_pos ⟨by rw [← hport]; rfl, by rw [← hport]; rfl⟩, if_pos hfeed]
    rfl
  · have hother : ¬ (node = ends.destination.node ∧ index = ends.destination.index) := by
      rintro ⟨rfl, rfl⟩
      exact hfeed (hslot.mpr (by rw [hdestination, ← PortRef.eq_input hdir]))
    rw [if_neg hother, if_neg hfeed]
    cases hfound : graph.inputConnection? node index with
    | none => rfl
    | some feed =>
      have hne : feed ≠ connection := fun heq => hfeed (by rw [hfound, heq])
      simp [source?_eraseConnection, hne]

/-! ### What additions keep -/

/-- Every port that is fed stays fed by the same port. -/
def FeedsStay (graph later : Graph) : Prop :=
  ∀ node index port, graph.inputSource? node index = some port →
    later.inputSource? node index = some port

/-- Every node stays as it is, connections apart. -/
def NodesStay (graph later : Graph) : Prop :=
  ∀ node bare, graph.bare? node = some bare → later.bare? node = some bare

theorem FeedsStay.trans {middle later : Graph} (h : graph.FeedsStay middle)
    (h' : middle.FeedsStay later) : graph.FeedsStay later :=
  fun node index port hport => h' node index port (h node index port hport)

/-- A new node is bare. -/
@[simp] theorem bare_newNode (graph : Graph) (desc : NodeDesc) :
    (graph.newNode desc).bare = graph.newNode desc := by
  simp [Node.bare, newNode, Function.comp_def]

theorem bare?_insertNode (graph : Graph) (desc : NodeDesc) (id : NodeId) :
    (graph.insertNode desc).bare? id =
      if id = ⟨graph.nextNode⟩ then some (graph.newNode desc) else graph.bare? id := by
  unfold bare?
  rw [node?_insertNode]
  split
  · rw [Option.map_some, bare_newNode]
  · rfl

theorem Coherent.feedsStay_insertNode (h : graph.Coherent) (desc : NodeDesc) :
    graph.FeedsStay (graph.insertNode desc) := fun node index port hport => by
  rw [h.inputSource?_insertNode]
  exact hport

/-- A connection is made to a port that nothing feeds, so every other feed stays. -/
theorem Coherent.feedsStay_insertConnection (h : graph.Coherent)
    (hcheck : graph.checkConnect source destination = .ok ()) :
    graph.FeedsStay (graph.insertConnection source destination) := fun node index port hport => by
  rw [h.inputSource?_insertConnection hcheck, if_neg, hport]
  rintro ⟨rfl, rfl⟩
  obtain ⟨_, _, _, _, hfree⟩ := (graph.checkConnect_eq_ok_iff source destination).mp hcheck
  rw [inputSource?_eq, hfree] at hport
  cases hport

/-! ### Used output ports -/

/-- A port lists something exactly if it feeds something. -/
theorem Linked.listed_ne_nil_iff (h : graph.Linked) (index : Nat) :
    graph.listed id index ≠ [] ↔ graph.Feeds (.output id index) := by
  constructor
  · intro hne
    obtain ⟨feed, hmem⟩ := List.exists_mem_of_ne_nil _ hne
    have hsource := (h.listed_iff id index feed).mp hmem
    obtain ⟨ends, hends, _⟩ := Option.map_eq_some_iff.mp hsource
    have hdestination : graph.destination? feed = some ends.destination := by
      rw [destination?, hends]; rfl
    have hdir := h.destination_input feed ends.destination hdestination
    rw [PortRef.eq_input hdir] at hdestination
    refine ⟨ends.destination.node, ends.destination.index, ?_⟩
    rw [inputSource?_eq, (h.feed_iff _ _ feed).mpr hdestination]
    exact hsource
  · rintro ⟨node, position, hfeeds⟩
    rw [inputSource?_eq] at hfeeds
    obtain ⟨feed, _, hsource⟩ := Option.bind_eq_some_iff.mp hfeeds
    exact List.ne_nil_of_mem ((h.listed_iff id index feed).mpr hsource)

/-- The number of used output ports depends on how many there are and which of them feed
something. -/
theorem usedOutputs_congr (h : graph.Linked) (h' : changed.Linked) {node node' : Node}
    (hn : graph.node? id = some node) (hn' : changed.node? id = some node')
    (hcount : node'.outputs.length = node.outputs.length)
    (hfeeds : ∀ index, changed.Feeds (.output id index) ↔ graph.Feeds (.output id index)) :
    node'.usedOutputs = node.usedOutputs := by
  have hports : node'.outputs.map (fun port => !port.isDisconnected) =
      node.outputs.map fun port => !port.isDisconnected := by
    apply List.ext_getElem
    · simpa using hcount
    · intro index hindex hindex'
      simp only [List.length_map] at hindex hindex'
      have hlisted : changed.listed id index ≠ [] ↔ graph.listed id index ≠ [] := by
        rw [h'.listed_ne_nil_iff, h.listed_ne_nil_iff, hfeeds]
      rw [graph.listed_of_node? hn, changed.listed_of_node? hn', Node.listed_of_lt hindex',
        Node.listed_of_lt hindex] at hlisted
      simp only [List.getElem_map, OutputPort.isDisconnected]
      cases hc : node.outputs[index].connections <;> cases hc' : node'.outputs[index].connections <;>
        simp_all
  have hcountP : ∀ ports : List OutputPort, ports.countP (fun port => !port.isDisconnected) =
      (ports.map fun port => !port.isDisconnected).countP fun used => used := fun ports => by
    rw [List.countP_map]
    rfl
  unfold Node.usedOutputs
  rw [hcountP, hcountP, hports]

end OpGraph.Graph
