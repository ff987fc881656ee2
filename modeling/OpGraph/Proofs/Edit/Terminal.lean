import OpGraph.Pass.Terminal
import OpGraph.Proofs.Edit.Failure
import OpGraph.Proofs.Graph.Extended

/-!
# Terminals can always be attached

A new terminal has one input port, which nothing feeds, so it can be connected to every output port
that exists. Neither the node nor its ports go away meanwhile.
-/

namespace OpGraph.Edit

variable {id : NodeId}

/-- The records of the graph agree and the node has output ports at the listed positions. -/
def Offers (id : NodeId) (ports : List Nat) (graph : Graph) : Prop :=
  graph.Coherent ∧ ∀ index ∈ ports, graph.HasPort (.output id index)

theorem ensures_offers_addTerminal {ports : List Nat} (node : Node) (index : Nat) :
    Ensures (Offers id ports) (addTerminal id node index) fun _ => Offers id ports := by
  rintro graph value result ⟨hgraph, hports⟩ hrun
  obtain ⟨terminal, _, hadd, hrun⟩ := run_bind_eq_ok.mp hrun
  cases hadd
  obtain ⟨_, _, hconnect, hpure⟩ := run_bind_eq_ok.mp hrun
  cases hpure
  obtain ⟨_, hconnect⟩ := run_discard_eq_ok.mp hconnect
  obtain ⟨hcheck, _, rfl⟩ := run_connect_eq_ok.mp hconnect
  have hnode := hgraph.extended_insertNode (terminalDesc node index)
  have hboth := hnode.trans (hnode.coherent.extended_insertConnection hcheck)
  exact ⟨hboth.coherent, fun port hport => hboth.hasPort (hports port hport)⟩

/-- An output port that exists may be connected to the input port of a new terminal. -/
theorem checkConnect_terminal {graph : Graph} {index : Nat} (hgraph : graph.Coherent) (node : Node)
    (hport : graph.HasPort (.output id index)) :
    (graph.insertNode (terminalDesc node index)).checkConnect (.output id index)
      (.input ⟨graph.nextNode⟩ 0) = .ok () := by
  have hnew : (graph.insertNode (terminalDesc node index)).node? ⟨graph.nextNode⟩ =
      some (graph.newNode (terminalDesc node index)) :=
    (graph.node?_insertNode _ _).trans (if_pos rfl)
  refine (Graph.checkConnect_eq_ok_iff _ _ _).mpr
    ⟨rfl, rfl, (hgraph.extended_insertNode _).hasPort hport, ⟨_, hnew, Nat.zero_lt_one⟩, ?_⟩
  change (graph.insertNode _).inputConnection? ⟨graph.nextNode⟩ 0 = none
  rw [Graph.inputConnection?_eq, hnew, Option.bind_some, Graph.feed?_newNode]

/-- A terminal is attached to an output port that exists by the two additions. -/
theorem run_addTerminal {graph : Graph} {index : Nat} (hgraph : graph.Coherent) (node : Node)
    (hport : graph.HasPort (.output id index)) :
    (addTerminal id node index).run graph = .ok ⟨graph.nextNode⟩
      ((graph.insertNode (terminalDesc node index)).insertConnection (.output id index)
        (.input ⟨graph.nextNode⟩ 0)) := by
  have hconnect := run_connect_eq_ok.mpr ⟨checkConnect_terminal hgraph node hport, rfl, rfl⟩
  exact run_bind_eq_ok.mpr ⟨_, _, rfl, run_bind_eq_ok.mpr
    ⟨⟨⟩, _, run_discard_eq_ok.mpr ⟨_, hconnect⟩, rfl⟩⟩

/-- A terminal can be attached to every output port that exists. -/
theorem failsOnly_addTerminal {ports : List Nat} {E : GraphError → Prop} {index : Nat} (node : Node)
    (hindex : index ∈ ports) : FailsOnly (Offers id ports) (addTerminal id node index) E := by
  rintro graph error result ⟨hgraph, hports⟩ hrun
  rw [run_addTerminal hgraph node (hports index hindex)] at hrun
  cases hrun

/-- Terminals can be attached to all output ports of a list that exist. -/
theorem failsOnly_addTerminals {ports attached : List Nat} {E : GraphError → Prop} (node : Node)
    (hattached : ∀ index ∈ attached, index ∈ ports) :
    FailsOnly (Offers id ports) (attached.mapM (addTerminal id node)) E :=
  failsOnly_mapM (fun index hindex => failsOnly_addTerminal node (hattached index hindex))
    fun index _ => ensures_offers_addTerminal node index

/-- The listed ports of a node that exists can be terminated if they exist. -/
theorem failsOnly_terminatePorts {ports : List Nat} {E : GraphError → Prop} :
    FailsOnly (fun graph => Offers id ports graph ∧ (graph.node? id).isSome = true)
      (terminatePorts id ports) E := by
  unfold terminatePorts
  simp only [forM_check]
  refine failsOnly_requireNode_bind (fun _ h => h.2) fun node =>
    failsOnly_check_bind (fun graph error h herror => ?_) fun _ => ?_
  · have hports : (ports.forM fun index => graph.checkPort (.output id index)) = .ok () :=
      Except.forM_eq_ok_iff.mpr fun index hindex =>
        (graph.checkPort_eq_ok_iff _).mpr (h.1.1.2 index hindex)
    rw [hports] at herror
    cases herror
  · have hattached : ∀ index ∈ ports.filter (node.disconnectedOutputs.contains ·), index ∈ ports :=
      fun index hindex => (List.mem_filter.mp hindex).1
    exact (failsOnly_addTerminals node hattached).mono (fun _ h => h.1.1.1) fun _ h => h

/-- The open output ports of a node exist. -/
theorem offers_disconnectedOutputs {graph : Graph} {node : Node} (h : graph.Coherent)
    (hn : graph.node? id = some node) : Offers id node.disconnectedOutputs graph := by
  refine ⟨h, fun index hindex => ?_⟩
  obtain ⟨port, hport, _⟩ := (h.registered.indexed id node hn).mem_disconnectedOutputs_iff.mp hindex
  exact ⟨node, hn, (List.getElem?_eq_some_iff.mp hport).1⟩

/-- The open output ports of a node that exists can be terminated. -/
theorem failsOnly_terminate {E : GraphError → Prop} :
    FailsOnly (fun graph => graph.Coherent ∧ (graph.node? id).isSome = true) (terminate id) E :=
  failsOnly_requireNode_bind (fun _ h => h.2) fun _ =>
    failsOnly_terminatePorts.mono (fun _ h => ⟨offers_disconnectedOutputs h.1.1 h.2, h.1.2⟩) fun _ h => h

end OpGraph.Edit
