import OpGraph.Graph.Query
import OpGraph.Proofs.Edit.Terminal
import OpGraph.Proofs.Graph.Drawn
import OpGraph.Proofs.Reachable
import OpGraph.Proofs.View.Stem

/-!
# Terminated ports

Which output ports of a node get a terminal is decided once, from the ports that fed nothing when
the request was made. Each place of the request where such a port stands then gets a terminal of its
own: a port that is listed twice gets two, since the second one is not held up by the first. Nodes
and connections that were there stay as they were, and no other port gets anything.
-/

namespace OpGraph

/-- A terminal as it was attached to an output port. -/
structure Terminal where
  /-- Position of the output port. -/
  port : Nat
  /-- Number of the terminal. -/
  id : NodeId
  /-- The terminal, connections apart. -/
  node : Node
  /-- Number of the connection that leads to it. -/
  link : ConnectionId

namespace Terminal

variable (terminal : Terminal)

/-- The terminal among the nodes. -/
def entry : NodeId × Node := (terminal.id, terminal.node)

/-- The connection from the port of the owner among the connections. -/
def connection (owner : NodeId) : ConnectionId × Connection :=
  (terminal.link, ⟨.output owner terminal.port, .input terminal.id 0⟩)

/-- The terminal is what the port of its owner asks for. -/
structure Ends (owner : Node) : Prop where
  /-- It is a graph output with one input port, and says whether the port has to stay. -/
  made : terminal.node.MadeFrom (terminalDesc owner terminal.port)
  /-- It has the name that is asked for, with a number appended if need be. -/
  name : GrowsFrom (terminalName owner.name terminal.port) terminal.node.name

end Terminal

/-- The node counts no port twice among the open ones. -/
theorem Node.Indexed.nodup_disconnectedOutputs {node : Node} (h : node.Indexed) :
    node.disconnectedOutputs.Nodup := by
  have hpositions : node.outputs.map (·.index) = List.range node.outputs.length := by
    refine List.ext_getElem? fun index => ?_
    rw [List.getElem?_map]
    by_cases hindex : index < node.outputs.length
    · rw [List.getElem?_eq_getElem hindex, Option.map_some, List.getElem?_range hindex,
        h.2 index _ (List.getElem?_eq_getElem hindex)]
    · rw [List.getElem?_eq_none (Nat.not_lt.mp hindex), Option.map_none, List.getElem?_eq_none]
      simpa using hindex
  have hall : (node.outputs.map (·.index)).Nodup := hpositions ▸ List.nodup_range
  exact hall.sublist (List.filter_sublist.map _)

namespace Graph

variable {graph later : Graph} {id : NodeId} {owner : Node} {ports : List Nat}
  {terminals : List Terminal}

/-- Terminals were attached to output ports of a node, in the order of a list, and nothing else has
changed. -/
structure Attached (graph : Graph) (id : NodeId) (owner : Node) (ports : List Nat)
    (terminals : List Terminal) (later : Graph) : Prop where
  /-- There is one terminal for each place of the list. -/
  ports : terminals.map (·.port) = ports
  /-- Each terminal is what its port asks for. -/
  ends : ∀ terminal ∈ terminals, terminal.Ends owner
  /-- The terminals and their connections are what was added. -/
  extended : graph.Extended (terminals.map (·.entry)) (terminals.map (·.connection id)) later

namespace Attached

theorem refl (h : graph.Coherent) : graph.Attached id owner [] [] graph :=
  ⟨rfl, fun _ h => absurd h List.not_mem_nil, .refl h⟩

theorem trans {middle : Graph} {ports' : List Nat} {terminals' : List Terminal}
    (h : graph.Attached id owner ports terminals middle)
    (h' : middle.Attached id owner ports' terminals' later) :
    graph.Attached id owner (ports ++ ports') (terminals ++ terminals') later where
  ports := by rw [List.map_append, h.ports, h'.ports]
  ends terminal hterminal := (List.mem_append.mp hterminal).elim (h.ends terminal) (h'.ends terminal)
  extended := by
    rw [List.map_append, List.map_append]
    exact h.extended.trans h'.extended

variable (h : graph.Attached id owner ports terminals later)
include h

/-- A port of the node feeds what it fed, and behind it its terminals. -/
theorem outputDestinations (hgraph : graph.Linked) (index : Nat) :
    later.outputDestinations id index = graph.outputDestinations id index ++
      (terminals.filter (·.port = index)).map fun terminal => .input terminal.id 0 := by
  have hstart : ∀ terminal : Terminal,
      ((terminal.connection id).2.source = .output id index) = (terminal.port = index) := by
    simp [Terminal.connection, PortRef.output]
  rw [h.extended.outputDestinations hgraph, List.filter_map, List.map_map]
  simp only [Function.comp_def, hstart]
  rfl

/-- A port has a terminal for each place of the list where it stands. -/
theorem length_filter (index : Nat) :
    (terminals.filter (·.port = index)).length = ports.count index := by
  rw [← h.ports, List.count_eq_countP, List.countP_map, List.countP_eq_length_filter]
  rfl

/-- A port that is not on the list feeds what it fed. -/
theorem outputDestinations_of_notMem (hgraph : graph.Linked) {other : NodeId} {index : Nat}
    (hnone : other = id → index ∉ ports) :
    later.outputDestinations other index = graph.outputDestinations other index := by
  refine h.extended.outputDestinations_of_notMem hgraph fun link hlink hstart => ?_
  obtain ⟨terminal, hterminal, rfl⟩ := List.mem_map.mp hlink
  cases hstart
  exact hnone rfl (h.ports ▸ List.mem_map_of_mem hterminal)

/-- The input ports of a node that was there are fed by the connections that fed them. -/
theorem inputConnection? (hgraph : graph.Linked) {other : NodeId}
    (hold : (graph.node? other).isSome = true) (index : Nat) :
    later.inputConnection? other index = graph.inputConnection? other index := by
  refine h.extended.inputConnection?_of_notMem hgraph fun link hlink hend => ?_
  obtain ⟨terminal, hterminal, rfl⟩ := List.mem_map.mp hlink
  cases hend
  have hnew := h.extended.node?_eq_none_of_mem (List.mem_map_of_mem hterminal)
  exact Option.isSome_iff_ne_none.mp hold hnew

end Attached

/-! ### Attaching -/

/-- One terminal is attached to an output port that exists. -/
theorem Coherent.attached_addTerminal (h : graph.Coherent) (owner : Node) {index : Nat}
    (hport : graph.HasPort (.output id index)) :
    ∃ terminal later, (Edit.addTerminal id owner index).run graph = .ok terminal.id later ∧
      graph.Attached id owner [index] [terminal] later := by
  have hnode := h.extended_insertNode (terminalDesc owner index)
  have hboth := hnode.trans
    (hnode.coherent.extended_insertConnection (Edit.checkConnect_terminal h owner hport))
  refine ⟨⟨index, ⟨graph.nextNode⟩, graph.newNode (terminalDesc owner index), ⟨graph.nextConnection⟩⟩,
    _, Edit.run_addTerminal h owner hport, rfl, fun terminal hterminal => ?_, hboth⟩
  rw [List.mem_singleton.mp hterminal]
  exact ⟨graph.madeFrom_newNode (terminalDesc owner index) _, graph.freshName_eq_or_suffixed _⟩

/-- Terminals are attached to output ports that exist, one for each place of the list. -/
theorem Coherent.attached_addTerminals (h : graph.Coherent) (owner : Node)
    (hports : ∀ index ∈ ports, graph.HasPort (.output id index)) :
    ∃ terminals later,
      (ports.mapM (Edit.addTerminal id owner)).run graph = .ok (terminals.map (·.id)) later ∧
        graph.Attached id owner ports terminals later := by
  induction ports generalizing graph with
  | nil => exact ⟨[], graph, rfl, .refl h⟩
  | cons index rest ih =>
    obtain ⟨terminal, middle, hfirst, hattached⟩ :=
      h.attached_addTerminal owner (hports index List.mem_cons_self)
    obtain ⟨terminals, later, hrest, hlater⟩ := ih hattached.extended.coherent fun port hport =>
      hattached.extended.hasPort (hports port (List.mem_cons_of_mem index hport))
    refine ⟨terminal :: terminals, later, ?_, hattached.trans hlater⟩
    rw [List.mapM_cons]
    exact Edit.run_bind_eq_ok.mpr
      ⟨_, _, hfirst, Edit.run_bind_eq_ok.mpr ⟨_, _, hrest, rfl⟩⟩

/-- The node counts a port among the open ones exactly if it feeds nothing. -/
theorem Coherent.contains_disconnectedOutputs (h : graph.Coherent) (hn : graph.node? id = some owner)
    {index : Nat} (hindex : index < owner.outputs.length) :
    owner.disconnectedOutputs.contains index = (graph.outputDestinations id index).isEmpty := by
  rw [Bool.eq_iff_iff, List.contains_iff_mem, List.isEmpty_iff,
    h.linked.outputDestinations_eq_nil_iff, graph.listed_of_node? hn, Node.listed_of_lt hindex,
    (h.registered.indexed id owner hn).mem_disconnectedOutputs_iff, List.getElem?_eq_getElem hindex]
  simp

/-- A node counts no port among the open ones exactly if all its ports feed something. -/
theorem Coherent.disconnectedOutputs_eq_nil_iff (h : graph.Coherent)
    (hn : graph.node? id = some owner) : owner.disconnectedOutputs = [] ↔
      ∀ index < owner.outputs.length, graph.outputDestinations id index ≠ [] := by
  have hindexed := h.registered.indexed id owner hn
  rw [List.eq_nil_iff_forall_not_mem]
  constructor
  · intro hclosed index hindex hnone
    have hcontains := h.contains_disconnectedOutputs hn hindex
    rw [hnone, List.isEmpty_nil, List.contains_iff_mem] at hcontains
    exact hclosed index hcontains
  · intro hfed index hmem
    obtain ⟨port, hport, _⟩ := hindexed.mem_disconnectedOutputs_iff.mp hmem
    have hindex := (List.getElem?_eq_some_iff.mp hport).1
    have hcontains := h.contains_disconnectedOutputs hn hindex
    rw [List.contains_iff_mem.mpr hmem] at hcontains
    exact hfed index hindex (List.isEmpty_iff.mp hcontains.symm)

/-- Output ports that exist are terminated by one terminal for each place of the list where a port
stands that fed nothing. -/
theorem Coherent.attached_terminatePorts (h : graph.Coherent) (hn : graph.node? id = some owner)
    (hports : ∀ index ∈ ports, index < owner.outputs.length) :
    ∃ terminals later,
      (Edit.terminatePorts id ports).run graph = .ok (terminals.map (·.id)) later ∧
        graph.Attached id owner
          (ports.filter fun index => (graph.outputDestinations id index).isEmpty) terminals later := by
  have hport : ∀ index ∈ ports, graph.HasPort (.output id index) := fun index hindex =>
    ⟨owner, hn, hports index hindex⟩
  have hopen : ports.filter owner.disconnectedOutputs.contains =
      ports.filter fun index => (graph.outputDestinations id index).isEmpty :=
    List.filter_congr fun index hindex => h.contains_disconnectedOutputs hn (hports index hindex)
  have hpresent : ∀ index ∈ ports.filter owner.disconnectedOutputs.contains,
      graph.HasPort (.output id index) :=
    fun index hindex => hport index (List.mem_filter.mp hindex).1
  obtain ⟨terminals, later, hrun, hattached⟩ := h.attached_addTerminals owner hpresent
  refine ⟨terminals, later, ?_, hopen ▸ hattached⟩
  unfold Edit.terminatePorts
  simp only [Edit.forM_check]
  refine Edit.run_check_bind_eq_ok.mpr ⟨owner, (graph.requireNode_eq_ok_iff).mpr hn,
    Edit.run_check_bind_eq_ok.mpr ⟨⟨⟩, ?_, hrun⟩⟩
  exact Except.forM_eq_ok_iff.mpr fun index hindex =>
    (graph.checkPort_eq_ok_iff _).mpr (hport index hindex)

/-- When a node is terminated each of its open output ports gets one terminal, in their order. -/
theorem Coherent.attached_of_run_terminate (h : graph.Coherent) (hn : graph.node? id = some owner)
    {value : List NodeId} (hrun : (Edit.terminate id).run graph = .ok value later) :
    ∃ terminals, graph.Attached id owner owner.disconnectedOutputs terminals later := by
  have hindexed := h.registered.indexed id owner hn
  have hports : ∀ index ∈ owner.disconnectedOutputs, index < owner.outputs.length := by
    intro index hmem
    obtain ⟨port, hport, _⟩ := hindexed.mem_disconnectedOutputs_iff.mp hmem
    exact (List.getElem?_eq_some_iff.mp hport).1
  obtain ⟨own, hown, hrun⟩ := Edit.run_check_bind_eq_ok.mp hrun
  cases hn.symm.trans (graph.requireNode_eq_ok_iff.mp hown)
  obtain ⟨terminals, result, hterminate, hattached⟩ := h.attached_terminatePorts hn hports
  cases hterminate.symm.trans hrun
  have hall : (owner.disconnectedOutputs.filter fun index =>
      (graph.outputDestinations id index).isEmpty) = owner.disconnectedOutputs :=
    List.filter_eq_self.mpr fun index hmem => by
      rw [← h.contains_disconnectedOutputs hn (hports index hmem)]
      exact List.contains_iff_mem.mpr hmem
  exact ⟨terminals, hall ▸ hattached⟩

/-- A node without open output ports is left as it is when it is terminated. -/
theorem run_terminate_of_closed (hn : graph.node? id = some owner)
    (hclosed : owner.disconnectedOutputs = []) :
    (Edit.terminate id).run graph = .ok [] graph := by
  have hrequire := graph.requireNode_eq_ok_iff.mpr hn
  refine Edit.run_check_bind_eq_ok.mpr ⟨owner, hrequire, ?_⟩
  rw [hclosed]
  exact Edit.run_check_bind_eq_ok.mpr ⟨owner, hrequire, rfl⟩

/-- Listed output ports of a node of a reachable graph can always be terminated. Each place of the
list where a port stands that fed nothing gets a terminal, in the order of the list, and nothing else
is added. Afterwards such a port feeds input 0 of its terminals, of which there are as many as the
list names the port, so exactly one if it names it once. All other output ports, among them the
listed ones that fed something, feed what they fed, and all nodes and all slots that were there are
what they were. -/
theorem terminals_of_terminatePorts (hreachable : graph.Reachable)
    (hn : graph.node? id = some owner) (hports : ∀ index ∈ ports, index < owner.outputs.length) :
    ∃ terminals later,
      (Edit.terminatePorts id ports).run graph = .ok (terminals.map (·.id)) later ∧
      graph.Attached id owner
        (ports.filter fun index => (graph.outputDestinations id index).isEmpty) terminals later ∧
      (∀ index ∈ ports, graph.outputDestinations id index = [] →
        later.outputDestinations id index =
            (terminals.filter (·.port = index)).map (fun terminal => .input terminal.id 0) ∧
          (later.outputDestinations id index).length = ports.count index) ∧
      ∀ other, (graph.node? other).isSome = true →
        later.bare? other = graph.bare? other ∧
        (∀ index, later.inputConnection? other index = graph.inputConnection? other index) ∧
        ∀ index, ¬ (other = id ∧ index ∈ ports ∧ graph.outputDestinations id index = []) →
          later.outputDestinations other index = graph.outputDestinations other index := by
  have h := hreachable.coherent
  obtain ⟨terminals, later, hrun, hattached⟩ := h.attached_terminatePorts hn hports
  refine ⟨terminals, later, hrun, hattached, fun index _ hopen => ?_, fun other hold => ?_⟩
  · have hdestinations := hattached.outputDestinations h.linked index
    rw [hopen, List.nil_append] at hdestinations
    refine ⟨hdestinations, ?_⟩
    rw [hdestinations, List.length_map, hattached.length_filter]
    exact List.count_filter (by rw [hopen]; rfl)
  · refine ⟨hattached.extended.bare?_of_isSome hold, hattached.inputConnection? h.linked hold,
      fun index hother => hattached.outputDestinations_of_notMem h.linked ?_⟩
    rintro hown hmem
    obtain ⟨hlisted, hopen⟩ := List.mem_filter.mp hmem
    exact hother ⟨hown, hlisted, List.isEmpty_iff.mp hopen⟩

/-- A pooling with two output ports, the second of which an activation reads. -/
def readPool : Graph :=
  [Operation.addNode { opType := "MaxPool", name := some "pool", outputs := 2 },
    .addNode { opType := "Relu", name := some "reader", inputs := 1, outputs := 1 },
    .connect (.output ⟨0⟩ 1) (.input ⟨1⟩ 0)].foldl
      (fun graph operation => operation.perform.after graph) .empty

/-- Only the first port gets a terminal, and the second one keeps its reader. -/
theorem terminals_of_terminatePorts_readPool :
    ∃ (terminal : Terminal) (later : Graph),
      (Edit.terminatePorts ⟨0⟩ [1, 0, 1]).run readPool = .ok [terminal.id] later ∧
        later.outputDestinations ⟨0⟩ 0 = [.input terminal.id 0] ∧
          later.outputDestinations ⟨0⟩ 1 = [.input ⟨1⟩ 0] := by
  have hreachable : readPool.Reachable := reachable_of_operations _
  obtain ⟨owner, hn, hcount⟩ : ∃ owner, readPool.node? ⟨0⟩ = some owner ∧ owner.outputs.length = 2 :=
    ⟨_, rfl, rfl⟩
  have hports : ∀ index ∈ [1, 0, 1], index < owner.outputs.length := by
    rw [hcount]
    decide
  obtain ⟨terminals, later, hrun, hattached, hopen, hkept⟩ :=
    terminals_of_terminatePorts hreachable hn hports
  have hplaces : terminals.map (·.port) = [0] := hattached.ports.trans (by decide)
  obtain ⟨terminal, rfl, hport⟩ := List.map_eq_singleton_iff.mp hplaces
  have hfirst := (hopen 0 (by decide) (by decide)).1
  have hsecond := (hkept ⟨0⟩ (by decide)).2.2 1 (by decide)
  refine ⟨terminal, later, hrun, ?_, hsecond.trans (by decide)⟩
  simp [hfirst, hport]

/-- A pooling whose only output port feeds nothing. -/
def openPool : Graph :=
  [Operation.addNode { opType := "MaxPool", name := some "pool", outputs := 1 }].foldl
    (fun graph operation => operation.perform.after graph) .empty

/-- One open port gets two terminals if it is listed twice, and both consume it. -/
theorem two_terminals_openPool :
    openPool.Reachable ∧ (∃ owner, openPool.node? ⟨0⟩ = some owner ∧ 0 < owner.outputs.length) ∧
      openPool.outputDestinations ⟨0⟩ 0 = [] ∧
        ∃ later, (Edit.terminatePorts ⟨0⟩ [0, 0]).run openPool = .ok [⟨1⟩, ⟨2⟩] later ∧
          (later.nodesOfType "Result").length = 2 ∧
            later.outputDestinations ⟨0⟩ 0 = [.input ⟨1⟩ 0, .input ⟨2⟩ 0] := by
  refine ⟨reachable_of_operations _, ⟨_, rfl, Nat.zero_lt_one⟩, rfl, _, rfl, ?_, ?_⟩
  · decide +kernel
  · decide +kernel

end Graph

end OpGraph
