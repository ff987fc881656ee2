import OpGraph.Proofs.Edit.Terminal
import OpGraph.Proofs.Reachable

/-!
# Failed operations leave no trace

Operations on nodes, ports and connections check their request before they change anything. Those
that consist of several changes could still fail between two of them. In a graph whose records
agree they do not: the connections of a node are different and can all be removed, and a new
terminal can be connected to every port that exists.
-/

namespace OpGraph

open Edit

namespace Graph

variable {graph : Graph} {id : NodeId} {node : Node}

/-! ### Removal of nodes -/

/-- Every connection that a node lists or holds stands in the table. -/
theorem Linked.isSome_of_mem_connectionIds (h : graph.Linked) (hn : graph.node? id = some node)
    {connection : ConnectionId} (hmem : connection ∈ node.connectionIds) :
    (graph.connection? connection).isSome = true := by
  rcases (h.mem_connectionIds hn).mp hmem with ⟨index, hend⟩ | ⟨index, hstart⟩
  · obtain ⟨ends, hends, _⟩ := Option.map_eq_some_iff.mp hend
    rw [hends]
    rfl
  · obtain ⟨ends, hends, _⟩ := Option.map_eq_some_iff.mp hstart
    rw [hends]
    rfl

/-- A node names each of its connections once. -/
theorem Linked.nodup_connectionIds (h : graph.Linked) (hn : graph.node? id = some node) :
    node.connectionIds.Nodup := Node.nodup_foldl_appendNew (h.nodup_incoming hn)

end Graph

namespace Edit

variable {id : NodeId}

/-- A node is removed with all of its connections or not at all. -/
theorem atomicOn_removeNode (mode : RemoveMode) : AtomicOn Graph.Coherent (removeNode id mode) := by
  refine atomicOn_check_bind fun node => ?_
  rintro graph error result ⟨hgraph, hnode⟩ hrun
  have hn : graph.node? id = some node := graph.requireNode_eq_ok_iff.mp hnode
  by_cases hguard : mode = .strict ∧ node.connectionIds ≠ []
  · rw [if_pos hguard] at hrun
    cases hrun
    rfl
  · rw [if_neg hguard] at hrun
    -- From here on nothing fails: the connections can be removed, and the node is still there.
    have hloop : FailsOnly (· = graph) (disconnectAll node.connectionIds) fun _ => False :=
      (failsOnly_disconnectAll (hgraph.linked.nodup_connectionIds hn)).mono
        (fun _ heq _ hmem => heq ▸ hgraph.linked.isSome_of_mem_connectionIds hn hmem) fun _ h => h
    have hstays : Ensures (· = graph) (disconnectAll node.connectionIds) fun _ graph =>
        (graph.node? id).isSome = true := fun start value middle heq hrun =>
      keeps_node_disconnectAll.ensures start value middle (by rw [heq, hn]; rfl) hrun
    refine FailsOnly.atomicOn (failsOnly_bind hloop hstays fun _ => ?_) graph error result rfl hrun
    exact failsOnly_requireNode_bind (fun _ hsome => hsome) fun _ =>
      failsOnly_bind (failsOnly_modify _) (fun _ _ _ _ _ => trivial) fun _ => failsOnly_pure _

theorem atomic_disconnectInput (index : Nat) : Atomic (disconnectInput id index) := by
  refine atomic_check_bind fun _ => atomic_get_bind fun graph => ?_
  cases graph.inputConnection? id index with
  | none => exact atomic_pure none
  | some feed =>
    intro start error result hrun
    rcases run_bind_eq_error.mp hrun with hdisconnect | ⟨_, _, _, hpure⟩
    · exact atomic_disconnect start error result hdisconnect
    · cases hpure

/-! ### Terminals -/

/-- Ports are looked up before the first terminal is attached. -/
theorem atomicOn_terminatePorts (ports : List Nat) :
    AtomicOn Graph.Coherent (terminatePorts id ports) := by
  unfold terminatePorts
  simp only [forM_check]
  refine atomicOn_check_bind fun node => atomicOn_check_bind fun _ => ?_
  have hattached : ∀ index ∈ ports.filter (node.disconnectedOutputs.contains ·), index ∈ ports :=
    fun index hindex => (List.mem_filter.mp hindex).1
  refine FailsOnly.atomicOn ((failsOnly_addTerminals node hattached).mono ?_ fun _ h => h)
  rintro graph ⟨⟨hgraph, _⟩, hports⟩
  exact ⟨hgraph, fun index hindex => (graph.checkPort_eq_ok_iff _).mp
    (Except.forM_eq_ok_iff.mp hports index hindex)⟩

theorem atomicOn_terminate : AtomicOn Graph.Coherent (terminate id) :=
  atomicOn_check_bind fun node graph error result h hrun =>
    atomicOn_terminatePorts node.disconnectedOutputs graph error result h.1 hrun

end Edit

/-! ### Operations -/

/-- The operation changes names, ports, connections or annotations of a graph, and its request can
be one that the graph does not allow. -/
inductive Operation.Refusable : Operation → Prop where
  | addInputPort (id : NodeId) : Refusable (.addInputPort id)
  | addOutputPort (id : NodeId) : Refusable (.addOutputPort id)
  | renameNode (id : NodeId) (name : String) : Refusable (.renameNode id name)
  | removeNode (id : NodeId) (mode : RemoveMode) : Refusable (.removeNode id mode)
  | connect (source destination : PortRef) : Refusable (.connect source destination)
  | disconnect (id : ConnectionId) : Refusable (.disconnect id)
  | disconnectInput (id : NodeId) (index : Nat) : Refusable (.disconnectInput id index)
  | rewireDestination (id : ConnectionId) (port : PortRef) : Refusable (.rewireDestination id port)
  | rewireSource (id : ConnectionId) (port : PortRef) : Refusable (.rewireSource id port)
  | annotate (port : PortRef) (info : TensorInfo) : Refusable (.annotate port info)
  | reannotate (port : PortRef) (info : TensorInfo) : Refusable (.reannotate port info)
  | terminatePorts (id : NodeId) (ports : List Nat) : Refusable (.terminatePorts id ports)
  | terminate (id : NodeId) : Refusable (.terminate id)

/-- On a coherent graph such an operation is performed as a whole or not at all. -/
theorem Operation.Refusable.atomicOn {operation : Operation} (h : operation.Refusable) :
    AtomicOn Graph.Coherent operation.perform := by
  cases h with
  | addInputPort id => exact atomicOn_discard atomic_addInputPort.atomicOn
  | addOutputPort id => exact atomicOn_discard atomic_addOutputPort.atomicOn
  | renameNode id name => exact atomic_renameNode.atomicOn
  | removeNode id mode => exact atomicOn_discard (atomicOn_removeNode mode)
  | connect source destination => exact atomicOn_discard atomic_connect.atomicOn
  | disconnect id => exact atomicOn_discard atomic_disconnect.atomicOn
  | disconnectInput id index => exact atomicOn_discard (atomic_disconnectInput index).atomicOn
  | rewireDestination id port => exact atomic_rewireDestination.atomicOn
  | rewireSource id port => exact atomic_rewireSource.atomicOn
  | annotate port info => exact atomic_annotate.atomicOn
  | reannotate port info => exact atomic_reannotate.atomicOn
  | terminatePorts id ports => exact atomicOn_discard (atomicOn_terminatePorts ports)
  | terminate id => exact atomicOn_discard atomicOn_terminate

/-- An operation that fails on a reachable graph leaves the graph as it was, in all of its records. -/
theorem unchanged_of_failed_operation {graph result : Graph} {operation : Operation}
    {error : GraphError} (hreachable : graph.Reachable) (hoperation : operation.Refusable)
    (hfailed : operation.perform.run graph = .error error result) : result = graph :=
  hoperation.atomicOn graph error result hreachable.coherent hfailed

/-- Of two output ports that are to be terminated the second one does not exist, so the first one
gets no terminal either. -/
theorem unchanged_of_failed_operation_missingPort :
    ∃ error result,
      (Operation.terminatePorts ⟨0⟩ [0, 1]).perform.run
        ((Operation.addNode { opType := "Parameter", outputs := 1 }).perform.after .empty) =
          .error error result ∧
      result = (Operation.addNode { opType := "Parameter", outputs := 1 }).perform.after .empty := by
  cases hrun : (Operation.terminatePorts ⟨0⟩ [0, 1]).perform.run
      ((Operation.addNode { opType := "Parameter", outputs := 1 }).perform.after .empty) with
  | ok value result =>
    have hfails : (match (Operation.terminatePorts ⟨0⟩ [0, 1]).perform.run
        ((Operation.addNode { opType := "Parameter", outputs := 1 }).perform.after .empty) with
      | .ok _ _ => true
      | .error _ _ => false) = false := by decide +kernel
    rw [hrun] at hfails
    cases hfails
  | error error result =>
    exact ⟨error, result, rfl, unchanged_of_failed_operation
      ⟨.empty, .empty, Graph.History.none.perform _⟩ (.terminatePorts ⟨0⟩ [0, 1]) hrun⟩

end OpGraph
