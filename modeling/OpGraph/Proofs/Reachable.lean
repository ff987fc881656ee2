import OpGraph.Proofs.Edit.Changes
import OpGraph.Proofs.Graph.WordCounters
import OpGraph.Proofs.Pass.Run

/-!
# Reachable graphs

A graph is reachable if operations lead to it from the graph without nodes or from an imported
model. Operations may fail, and the graph that a failed operation leaves behind counts as well.
In every reachable graph all records agree, and no number of a node or of a connection ever
comes back.

Numbers are counted without bound. Counters of 32 bits lead to the same graphs as long as no
counter has run over, that is for histories that number fewer than 4294967296 nodes and as many
connections, and only for these histories is the main statement made.
-/

namespace OpGraph

/-- What can be done to a graph. -/
inductive Operation where
  | addNode (desc : NodeDesc)
  | addInputPort (id : NodeId)
  | addOutputPort (id : NodeId)
  | renameNode (id : NodeId) (name : String)
  | removeNode (id : NodeId) (mode : RemoveMode)
  | connect (source destination : PortRef)
  | disconnect (id : ConnectionId)
  | disconnectInput (id : NodeId) (index : Nat)
  | rewireDestination (id : ConnectionId) (port : PortRef)
  | rewireSource (id : ConnectionId) (port : PortRef)
  | annotate (port : PortRef) (info : TensorInfo)
  | reannotate (port : PortRef) (info : TensorInfo)
  /-- The type of a node is set, if there is such a node. -/
  | setOpType (id : NodeId) (opType : String)
  /-- The attributes of a node are edited in any way, if there is such a node. -/
  | editAttributes (id : NodeId) (f : Attributes → Attributes)
  | inferNode (registry : InferRegistry) (id : NodeId)
  | inferGraph (registry : InferRegistry)
  | terminatePorts (id : NodeId) (ports : List Nat)
  | terminate (id : NodeId)
  /-- One standard pass runs, with or without a test of its postcondition. -/
  | runPass (pass : Pass) (standard : pass.Standard) (verify : Bool)
  /-- Standard passes run in the order of their registry. -/
  | runPasses (passes : PassRegistry) (standard : ∀ pass ∈ passes, pass.Standard) (verify : Bool)

/-- The edit behind an operation. -/
def Operation.perform : Operation → Edit Unit
  | addNode desc => discard (Edit.addNode desc)
  | addInputPort id => discard (Edit.addInputPort id)
  | addOutputPort id => discard (Edit.addOutputPort id)
  | renameNode id name => Edit.renameNode id name
  | removeNode id mode => discard (Edit.removeNode id mode)
  | connect source destination => discard (Edit.connect source destination)
  | disconnect id => discard (Edit.disconnect id)
  | disconnectInput id index => discard (Edit.disconnectInput id index)
  | rewireDestination id port => Edit.rewireDestination id port
  | rewireSource id port => Edit.rewireSource id port
  | annotate port info => Edit.annotate port info
  | reannotate port info => Edit.reannotate port info
  | setOpType id opType => Edit.setOpType id opType
  | editAttributes id f =>
    modify (·.modifyNode id fun node => { node with attributes := f node.attributes })
  | inferNode registry id => discard (Infer.inferNode registry id)
  | inferGraph registry => discard (Infer.inferGraph registry)
  | terminatePorts id ports => discard (Edit.terminatePorts id ports)
  | terminate id => discard (Edit.terminate id)
  | runPass pass _ verify => discard (pass.run verify)
  | runPasses passes _ verify => discard (passes.run verify)

namespace Graph

/-- Operations lead from one graph to another, whether they succeed or fail. -/
inductive History (start : Graph) : Graph → Prop where
  /-- Nothing has happened yet. -/
  | none : History start start
  /-- One more operation is performed. -/
  | perform {graph : Graph} (before : History start graph) (operation : Operation) :
    History start (operation.perform.after graph)

/-- The graph without nodes or the graph of a model. -/
inductive Initial : Graph → Prop where
  | empty : Initial Graph.empty
  | imported {model : SourceModel} {registry : ExtractorRegistry} {graph : Graph}
      (success : model.toGraph registry = .ok graph) : Initial graph

/-- Operations lead to the graph from an initial one. -/
def Reachable (graph : Graph) : Prop := ∃ start, Initial start ∧ History start graph

/-- The graph that operations leave behind when they are performed one after another. -/
def afterAll (graph : Graph) (operations : List Operation) : Graph :=
  operations.foldl (fun graph operation => operation.perform.after graph) graph

/-- Operations performed one after another are a history. -/
theorem history_afterAll (graph : Graph) (operations : List Operation) :
    History graph (graph.afterAll operations) := by
  suffices ∀ start, History graph start → History graph (start.afterAll operations) from
    this graph .none
  induction operations with
  | nil => exact fun _ hhistory => hhistory
  | cons operation rest ih => exact fun start hhistory => ih _ (hhistory.perform operation)

/-- Operations from nothing lead to reachable graphs. -/
theorem reachable_of_operations (operations : List Operation) :
    (operations.foldl (fun graph operation => operation.perform.after graph) empty).Reachable :=
  ⟨.empty, .empty, history_afterAll .empty operations⟩

/-- All records of a graph say the same. -/
structure Consistent (graph : Graph) : Prop where
  /-- A connection stands in the table exactly when the output port where it starts lists it once
  and the slot of the input port where it ends holds it. -/
  recorded : ∀ id ends, graph.connection? id = some ends ↔
    ends.source.direction = .output ∧ ends.destination.direction = .input ∧
      (graph.listed ends.source.node ends.source.index).count id = 1 ∧
        graph.inputConnection? ends.destination.node ends.destination.index = some id
  /-- A connection runs between ports that exist. -/
  ports : ∀ id ends, graph.connection? id = some ends →
    graph.HasPort ends.source ∧ graph.HasPort ends.destination
  /-- A port that lists a connection is the one at which the table lets it start. -/
  listed : ∀ id node index, id ∈ graph.listed node index →
    ∃ ends, graph.connection? id = some ends ∧ ends.source = .output node index
  /-- A port that holds a connection is the one at which the table lets it end. -/
  slot : ∀ id node index, graph.inputConnection? node index = some id →
    ∃ ends, graph.connection? id = some ends ∧ ends.destination = .input node index
  /-- A name leads to the node that carries it and to no other. -/
  names : ∀ name id, graph.idOf? name = some id ↔
    ∃ node, graph.node? id = some node ∧ node.name = name
  /-- Every port carries its position. -/
  positions : ∀ id node, graph.node? id = some node → node.Indexed
  /-- Nodes stand in the order of their numbers, all of them below the next one. -/
  nodes : graph.nodes.Counted NodeId.index graph.nextNode
  /-- Connections stand in the order of their numbers, all of them below the next one. -/
  connections : graph.connections.Counted ConnectionId.index graph.nextConnection

variable {start graph later : Graph}

/-- An operation takes a coherent graph through single changes. -/
theorem Coherent.changes_perform (h : graph.Coherent) (operation : Operation) :
    graph.Changes (operation.perform.after graph) := by
  suffices Edit.Keeps graph.Changes operation.perform from this graph .refl
  have hpass : ∀ pass : Pass, pass.Standard → ∀ verify, Edit.Keeps graph.Changes (pass.run verify) :=
    fun pass hstandard verify => Edit.keeps_run_pass verify fun found =>
      Edit.changes_apply_standard hstandard found h
  cases operation with
  | addNode desc => exact Edit.keeps_discard (Edit.changes_addNode desc)
  | addInputPort id => exact Edit.keeps_discard (Edit.changes_addInputPort h)
  | addOutputPort id => exact Edit.keeps_discard (Edit.changes_addOutputPort h)
  | renameNode id name => exact Edit.changes_renameNode name h
  | removeNode id mode => exact Edit.keeps_discard (Edit.changes_removeNode mode h)
  | connect source destination => exact Edit.keeps_discard (Edit.changes_connect h)
  | disconnect id => exact Edit.keeps_discard (Edit.changes_disconnect h)
  | disconnectInput id index => exact Edit.keeps_discard (Edit.changes_disconnectInput index h)
  | rewireDestination id port => exact Edit.changes_rewireDestination h
  | rewireSource id port => exact Edit.changes_rewireSource h
  | annotate port info => exact Edit.changes_annotate info h
  | reannotate port info => exact Edit.changes_reannotate info h
  | setOpType id opType => exact Edit.changes_setOpType opType h
  | editAttributes id f => exact fun _ hgraph => hgraph.tail (.modifyNode id (.attributes f))
  | inferNode registry id => exact Edit.keeps_discard ((Edit.additions_changes h).inferNode registry)
  | inferGraph registry => exact Edit.keeps_discard ((Edit.additions_changes h).inferGraph registry)
  | terminatePorts id ports => exact Edit.keeps_discard ((Edit.additions_changes h).terminatePorts ports)
  | terminate id => exact Edit.keeps_discard (Edit.additions_changes h).terminate
  | runPass pass standard verify => exact Edit.keeps_discard (hpass pass standard verify)
  | runPasses passes standard verify =>
    refine Edit.keeps_discard (Edit.keeps_bind (Edit.keeps_ofExcept _) fun order =>
      Edit.keeps_foldlM (fun pass hmem stats => ?_) _)
    obtain ⟨name, _, hname⟩ := List.mem_filterMap.mp hmem
    exact Edit.keeps_bind (hpass pass (standard pass (List.mem_of_find?_eq_some hname)) verify)
      fun _ => Edit.keeps_pure _

/-- A whole history takes a coherent graph through single changes. -/
theorem History.changes (h : start.Coherent) (hhistory : History start graph) :
    start.Changes graph := by
  induction hhistory with
  | none => exact .refl
  | perform _ operation ih => exact ih.trans ((h.changes ih).changes_perform operation)

/-- Initial graphs are coherent. -/
theorem Initial.coherent (h : Initial graph) : graph.Coherent := by
  cases h with
  | empty => exact .empty
  | imported success => exact Coherent.empty.changes (SourceModel.changes_toGraph success)

/-- Reachable graphs are coherent. -/
theorem Reachable.coherent (h : graph.Reachable) : graph.Coherent := by
  obtain ⟨start, hinitial, hhistory⟩ := h
  exact hinitial.coherent.changes (hhistory.changes hinitial.coherent)

/-- Coherence is consistency. -/
theorem Coherent.consistent (h : graph.Coherent) : graph.Consistent where
  recorded id ends := by
    constructor
    · intro hends
      have hsource : graph.source? id = some ends.source := by rw [source?, hends]; rfl
      have hdestination : graph.destination? id = some ends.destination := by
        rw [destination?, hends]; rfl
      have hdirSource := h.linked.source_output id ends.source hsource
      have hdirDestination := h.linked.destination_input id ends.destination hdestination
      rw [PortRef.eq_output hdirSource] at hsource
      rw [PortRef.eq_input hdirDestination] at hdestination
      have hlisted := (h.linked.listed_iff _ _ id).mpr hsource
      exact ⟨hdirSource, hdirDestination,
        List.count_eq_one_of_mem (h.linked.nodup _ _) hlisted, (h.linked.feed_iff _ _ id).mpr hdestination⟩
    · rintro ⟨hdirSource, hdirDestination, hcount, hslot⟩
      have hmem : id ∈ graph.listed ends.source.node ends.source.index :=
        List.count_pos_iff.mp (by omega)
      have hsource := (h.linked.listed_iff _ _ id).mp hmem
      have hdestination := (h.linked.feed_iff _ _ id).mp hslot
      rw [← PortRef.eq_output hdirSource] at hsource
      rw [← PortRef.eq_input hdirDestination] at hdestination
      obtain ⟨found, hfound, hstart⟩ := Option.map_eq_some_iff.mp hsource
      obtain ⟨same, hsame, hend⟩ := Option.map_eq_some_iff.mp hdestination
      cases hfound.symm.trans hsame
      rw [hfound]
      cases found
      cases hstart
      cases hend
      rfl
  ports id ends hends := by
    have hsource : graph.source? id = some ends.source := by rw [source?, hends]; rfl
    have hdestination : graph.destination? id = some ends.destination := by
      rw [destination?, hends]; rfl
    exact ⟨h.linked.hasPort_source hsource, h.linked.hasPort_destination hdestination⟩
  listed id node index hmem :=
    Option.map_eq_some_iff.mp ((h.linked.listed_iff node index id).mp hmem)
  slot id node index hslot :=
    Option.map_eq_some_iff.mp ((h.linked.feed_iff node index id).mp hslot)
  names name id := (h.registered.named name id).trans Option.map_eq_some_iff
  positions := h.registered.indexed
  nodes := h.registered.counted
  connections := h.counted

/-- Single changes lead to a reachable graph from the graph without nodes. -/
theorem Reachable.changes (h : graph.Reachable) : Changes .empty graph := by
  obtain ⟨start, hinitial, hhistory⟩ := h
  refine .trans ?_ (hhistory.changes hinitial.coherent)
  cases hinitial with
  | empty => exact .refl
  | imported success => exact SourceModel.changes_toGraph success

/-- Operations lead from reachable graphs to reachable graphs. -/
theorem Reachable.history (h : graph.Reachable) (hhistory : History graph later) :
    later.Reachable := by
  obtain ⟨start, hinitial, hbefore⟩ := h
  refine ⟨start, hinitial, ?_⟩
  induction hhistory with
  | none => exact hbefore
  | perform _ operation ih => exact ih.perform operation

/-- The graph and its numbers are what counters of 32 bits lead to. -/
structure CountedInWords (graph : Graph) : Prop where
  /-- Numbers of nodes are words. -/
  node : ∀ id node, graph.node? id = some node → id.index < 4294967296
  /-- Numbers of connections are words. -/
  connection : ∀ id ends, graph.connection? id = some ends → id.index < 4294967296
  /-- The changes that have made the graph are the same in words. -/
  changes : WordChanges .empty graph

/-- Connections have numbers below the next one. -/
theorem Coherent.lt_nextConnection (h : graph.Coherent) {id : ConnectionId} {ends : Connection}
    (hends : graph.connection? id = some ends) : id.index < graph.nextConnection := by
  by_contra hlarge
  have hnone : graph.connection? id = none := h.counted.get?_eq_none (Nat.not_lt.mp hlarge)
  rw [hnone] at hends
  cases hends

/-- A reachable graph is counted in words if its counters fit. -/
theorem Reachable.countedInWords (h : graph.Reachable) (hfit : graph.CountersFit) :
    graph.CountedInWords where
  node _ _ hn := Nat.lt_trans (h.coherent.registered.lt_nextNode hn) hfit.nextNode
  connection _ _ hends := Nat.lt_trans (h.coherent.lt_nextConnection hends) hfit.nextConnection
  changes := h.changes.wordChanges hfit

end Graph

end OpGraph
