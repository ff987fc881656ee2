import OpGraph.Source.Model
import OpGraph.Proofs.Edit.Composite
import OpGraph.Proofs.Graph.Change

/-!
# Edits are sequences of single changes

Every edit of the library takes a coherent graph through single changes, however far it comes:
the operations on nodes and connections, inference, terminals, the standard passes and imports
of models. What all single changes keep is thereby kept by all of these.
-/

namespace OpGraph

/-! ### Neutral changes of nodes -/

namespace Node.Neutral

theorem setOpType (opType : String) : Neutral fun node => { node with opType } :=
  ⟨fun _ => rfl, fun _ _ => rfl, fun _ _ => rfl, fun _ h => h⟩

theorem attributes (f : Attributes → Attributes) :
    Neutral fun node => { node with attributes := f node.attributes } :=
  ⟨fun _ => rfl, fun _ _ => rfl, fun _ _ => rfl, fun _ h => h⟩

/-- A new input port is fed by nothing and carries the next position. -/
theorem withInput : Neutral Edit.withInput where
  name _ := rfl
  feed node index := by
    simp only [feed?, Edit.withInput, List.getElem?_append]
    split
    · rfl
    · rename_i hindex
      rw [List.getElem?_eq_none (Nat.not_lt.mp hindex)]
      cases index - node.inputs.length <;> simp
  listed _ _ := rfl
  indexed node h := by
    refine ⟨fun index port hport => ?_, h.2⟩
    simp only [Edit.withInput, List.getElem?_append] at hport
    split at hport
    · exact h.1 index port hport
    · obtain ⟨hlast, rfl⟩ := List.getElem?_eq_some_iff.mp hport
      simp only [List.length_singleton] at hlast
      simp only [List.getElem_singleton]
      omega

/-- A new output port lists nothing and carries the next position, whatever is known about it. -/
theorem appendOutput (info : Option TensorInfo) :
    Neutral fun node =>
      { node with outputs := node.outputs ++ [⟨node.outputs.length, [], info⟩] } where
  name _ := rfl
  feed _ _ := rfl
  listed node index := by
    simp only [Node.listed, List.getElem?_append]
    split
    · rfl
    · rename_i hindex
      rw [List.getElem?_eq_none (Nat.not_lt.mp hindex)]
      cases index - node.outputs.length <;> simp
  indexed node h := by
    refine ⟨h.1, fun index port hport => ?_⟩
    simp only [List.getElem?_append] at hport
    split at hport
    · exact h.2 index port hport
    · obtain ⟨hlast, rfl⟩ := List.getElem?_eq_some_iff.mp hport
      simp only [List.length_singleton] at hlast
      simp only [List.getElem_singleton]
      omega

theorem withOutput : Neutral Edit.withOutput := appendOutput none

/-- What is known about a port shows nowhere else. -/
theorem annotate (index : Nat) (info : TensorInfo) :
    Neutral fun node =>
      { node with outputs := node.outputs.modify index ({ · with info := some info }) } where
  name _ := rfl
  feed _ _ := rfl
  listed node position := by
    simp only [Node.listed, List.getElem?_modify]
    cases node.outputs[position]? with
    | none => rfl
    | some port => by_cases h : index = position <;> simp [h]
  indexed node h := by
    refine ⟨h.1, fun position port hport => ?_⟩
    rw [List.getElem?_modify] at hport
    obtain ⟨old, hold, rfl⟩ := Option.map_eq_some_iff.mp hport
    have hindex := h.2 position old hold
    split <;> exact hindex

end Node.Neutral

/-! ### Operations -/

namespace Edit

variable {start : Graph} {id : NodeId} {connection : ConnectionId} {port source destination : PortRef}

/-- An atomic edit makes the changes that its successful runs make. -/
theorem Atomic.changes {α : Type} {edit : Edit α} (hedit : Atomic edit)
    (hok : ∀ graph value result, graph.Coherent → edit.run graph = .ok value result →
      graph.Changes result) (hstart : start.Coherent) : Keeps start.Changes edit :=
  hedit.keeps fun graph value result hgraph hrun =>
    hgraph.trans (hok graph value result (hstart.changes hgraph) hrun)

theorem changes_addNode (desc : NodeDesc) : Keeps start.Changes (addNode desc) :=
  fun _ h => h.tail (.insertNode desc)

theorem changes_addInputPort (hstart : start.Coherent) : Keeps start.Changes (addInputPort id) :=
  atomic_addInputPort.changes (fun graph index result _ hrun => by
    obtain ⟨node, _, _, rfl⟩ := run_addInputPort_eq_ok.mp hrun
    exact .single (.modifyNode id .withInput)) hstart

theorem changes_addOutputPort (hstart : start.Coherent) : Keeps start.Changes (addOutputPort id) :=
  atomic_addOutputPort.changes (fun graph index result _ hrun => by
    obtain ⟨node, _, _, rfl⟩ := run_addOutputPort_eq_ok.mp hrun
    exact .single (.modifyNode id .withOutput)) hstart

theorem changes_renameNode (name : String) (hstart : start.Coherent) :
    Keeps start.Changes (renameNode id name) :=
  atomic_renameNode.changes (fun graph _ result _ hrun => by
    obtain ⟨node, hn, ⟨_, rfl⟩ | ⟨_, hfree, rfl⟩⟩ := run_renameNode_eq_ok.mp hrun
    · exact .refl
    · exact .single (.rename hn hfree)) hstart

theorem changes_connect (hstart : start.Coherent) :
    Keeps start.Changes (connect source destination) :=
  atomic_connect.changes (fun graph _ result _ hrun => by
    obtain ⟨hcheck, _, rfl⟩ := run_connect_eq_ok.mp hrun
    exact .single (.insertConnection hcheck)) hstart

theorem changes_disconnect (hstart : start.Coherent) :
    Keeps start.Changes (disconnect connection) :=
  atomic_disconnect.changes (fun graph _ result _ hrun => by
    obtain ⟨hends, rfl⟩ := run_disconnect_eq_ok.mp hrun
    exact .single (.eraseConnection hends)) hstart

theorem changes_disconnectInput (index : Nat) (hstart : start.Coherent) :
    Keeps start.Changes (disconnectInput id index) :=
  keeps_disconnectInput fun _ => changes_disconnect hstart

/-- A connection at a node is among those that are removed with it. -/
theorem detached_of_run_disconnectAll {graph middle : Graph} {node : Node} {value : PUnit}
    (hgraph : graph.Coherent) (hn : graph.node? id = some node)
    (hloop : (disconnectAll node.connectionIds).run graph = .ok value middle) :
    middle.Detached id := by
  have hgone := connection?_of_run_disconnectAll hloop
  constructor
  · intro connection port hport hnode
    have hall : graph.source? connection = some port ∧ connection ∉ node.connectionIds := by
      unfold Graph.source? at hport
      rw [hgone] at hport
      split at hport
      · cases hport
      · rename_i hmem
        exact ⟨hport, hmem⟩
    have hdir := PortRef.eq_output (hgraph.linked.source_output connection port hall.1)
    rw [hnode] at hdir
    exact hall.2 ((hgraph.linked.mem_connectionIds hn).mpr (.inr ⟨port.index, hdir ▸ hall.1⟩))
  · intro connection port hport hnode
    have hall : graph.destination? connection = some port ∧ connection ∉ node.connectionIds := by
      unfold Graph.destination? at hport
      rw [hgone] at hport
      split at hport
      · cases hport
      · rename_i hmem
        exact ⟨hport, hmem⟩
    have hdir := PortRef.eq_input (hgraph.linked.destination_input connection port hall.1)
    rw [hnode] at hdir
    exact hall.2 ((hgraph.linked.mem_connectionIds hn).mpr (.inl ⟨port.index, hdir ▸ hall.1⟩))

theorem changes_removeNode (mode : RemoveMode) (hstart : start.Coherent) :
    Keeps start.Changes (removeNode id mode) :=
  keeps_removeNode (fun _ => changes_disconnect hstart)
    fun _ _ _ _ hgraph hmiddle hn hloop hbare =>
      hmiddle.tail (.eraseNode hbare
        (detached_of_run_disconnectAll (hstart.changes hgraph) hn hloop))

theorem changes_rewireDestination (hstart : start.Coherent) :
    Keeps start.Changes (rewireDestination connection port) :=
  atomic_rewireDestination.changes (fun graph _ result _ hrun => by
    obtain ⟨ends, hends, hdir, hport, ⟨_, rfl⟩ | ⟨_, hfree, rfl⟩⟩ :=
      run_rewireDestination_eq_ok.mp hrun
    · exact .refl
    · exact .single (.moveDestination hends hdir hport hfree)) hstart

theorem changes_rewireSource (hstart : start.Coherent) :
    Keeps start.Changes (rewireSource connection port) :=
  atomic_rewireSource.changes (fun graph _ result _ hrun => by
    obtain ⟨ends, hends, hdir, hport, rfl⟩ := run_rewireSource_eq_ok.mp hrun
    by_cases hsame : port = ends.source
    · rw [if_pos hsame]
      exact .refl
    · rw [if_neg hsame]
      exact .single (.moveSource hends hdir hport hsame)) hstart

theorem changes_reannotate (info : TensorInfo) (hstart : start.Coherent) :
    Keeps start.Changes (reannotate port info) :=
  atomic_reannotate.changes (fun graph _ result _ hrun => by
    obtain ⟨_, _, rfl⟩ := run_reannotate_eq_ok.mp hrun
    exact .single (.modifyNode port.node (.annotate port.index info))) hstart

theorem changes_annotate (info : TensorInfo) (hstart : start.Coherent) :
    Keeps start.Changes (annotate port info) :=
  atomic_annotate.changes (fun graph _ result _ hrun => by
    obtain ⟨_, _, _, rfl⟩ := run_annotate_eq_ok.mp hrun
    exact .single (.modifyNode port.node (.annotate port.index info))) hstart

/-- A neutral change of a node in place. -/
theorem changes_changeNode {f : Node → Node} (hf : Node.Neutral f) (hstart : start.Coherent) :
    Keeps start.Changes
      (discard (check (·.requireNode id)) >>= fun _ => modify (·.modifyNode id f) : Edit Unit) :=
  atomic_changeNode.changes (fun graph _ result _ hrun => by
    obtain ⟨_, rfl⟩ := run_changeNode_eq_ok.mp hrun
    exact .single (.modifyNode id hf)) hstart

theorem changes_setOpType (opType : String) (hstart : start.Coherent) :
    Keeps start.Changes (setOpType id opType) :=
  changes_changeNode (.setOpType opType) hstart

theorem changes_removeAttributes (names : List String) (hstart : start.Coherent) :
    Keeps start.Changes (removeAttributes id names) :=
  changes_changeNode (.attributes (·.eraseAll names)) hstart

/-- All additions are single changes. -/
theorem additions_changes (hstart : start.Coherent) : Additions start.Changes where
  addNode desc _ := changes_addNode desc
  addInputPort _ := changes_addInputPort hstart
  addOutputPort _ := changes_addOutputPort hstart
  connect _ _ := changes_connect hstart
  annotate _ info := changes_annotate info hstart
  removeAttributes _ names := changes_removeAttributes names hstart

/-! ### Passes -/

theorem changes_bypassMarker (marker : Node) (hstart : start.Coherent) :
    Keeps start.Changes (bypassMarker id marker connection source) :=
  keeps_bind (keeps_forM fun _ _ => changes_rewireSource hstart) fun _ =>
    keeps_bind (keeps_discard (changes_disconnect hstart)) fun _ =>
      keeps_bind (changes_renameNode _ hstart) fun _ =>
        keeps_bind (changes_renameNode _ hstart) fun _ =>
          keeps_discard (changes_removeNode .strict hstart)

theorem changes_resolveMarker (found : Match) (hstart : start.Coherent) :
    Keeps start.Changes (resolveMarker found) :=
  keeps_bind (keeps_ofExcept _) fun id => keeps_bind (keeps_check _) fun marker =>
    keeps_bind (keeps_check _) fun feed => keeps_bind (keeps_check _) fun ends =>
      keeps_bind (keeps_check _) fun producer => by
        by_cases hsingle : producer.usedOutputs = 1
        · rw [if_pos hsingle]
          exact changes_bypassMarker marker hstart
        · rw [if_neg hsingle]
          exact changes_setOpType "Identity" hstart

/-- The standard passes do nothing but single changes with a match. -/
theorem changes_apply_standard {pass : Pass} (hpass : pass ∈ PassRegistry.standard) (found : Match)
    (hstart : start.Coherent) : Keeps start.Changes (pass.apply found) := by
  simp only [PassRegistry.standard, List.mem_cons, List.not_mem_nil, or_false] at hpass
  rcases hpass with rfl | rfl | rfl | rfl
  · exact changes_resolveMarker found hstart
  · exact (additions_changes hstart).canonizeMaxPool fun _ _ => changes_setOpType _ hstart
  · exact (additions_changes hstart).canonizeAvgPool fun _ _ => changes_setOpType _ hstart
  · exact (additions_changes hstart).canonizeGather fun _ _ => changes_setOpType _ hstart

/-! ### Import -/

theorem changes_define (names : SourceNames) (name : String) (desc : NodeDesc) :
    Keeps start.Changes (SourceModel.define names name desc) :=
  keeps_bind (changes_addNode _) fun _ => keeps_bind (keeps_ofExcept _) fun _ => keeps_pure _

theorem changes_build (model : SourceModel) (extracted : List Extracted) (hstart : start.Coherent) :
    Keeps start.Changes (model.build extracted) := by
  refine keeps_bind (keeps_foldlM (fun input _ names => ?_) ∅) fun names =>
    keeps_bind (keeps_foldlM (fun item _ names => ?_) names) fun names =>
      keeps_bind (keeps_forM fun edge _ => ?_) fun _ =>
        keeps_discard (keeps_foldlM (fun output _ names => ?_) names)
  · exact keeps_bind (changes_define _ _ _) fun _ => keeps_pure _
  · exact keeps_bind (changes_define _ _ _) fun _ => keeps_pure _
  · exact keeps_bind (keeps_ofExcept _) fun _ => keeps_bind (keeps_ofExcept _) fun _ =>
      keeps_discard (changes_connect hstart)
  · exact keeps_bind (keeps_ofExcept _) fun _ => keeps_bind (changes_define _ _ _) fun _ =>
      keeps_bind (changes_addNode _) fun _ => keeps_bind (keeps_discard (changes_connect hstart)) fun _ =>
        keeps_bind (keeps_discard (changes_connect hstart)) fun _ => keeps_pure _

end Edit

/-- A graph was imported if the operators were read and the build succeeded. -/
theorem SourceModel.toGraph_eq_ok_iff {model : SourceModel} {registry : ExtractorRegistry}
    {graph : Graph} : model.toGraph registry = .ok graph ↔
    ∃ extracted, model.operators.mapM (fun operator =>
        registry.extract model.format operator.operator operator.record) = .ok extracted ∧
      (model.build extracted).run .empty = .ok () graph := by
  unfold toGraph
  cases hextracted : model.operators.mapM fun operator =>
      registry.extract model.format operator.operator operator.record with
  | error error => simp [bind, Except.bind]
  | ok extracted =>
    simp only [bind, Except.bind, Except.ok.injEq, exists_eq_left']
    cases hrun : (model.build extracted).run .empty <;>
      simp [pure, Except.pure, throw, throwThe, MonadExceptOf.throw]

/-- An imported graph comes about by single changes from the graph without nodes. -/
theorem SourceModel.changes_toGraph {model : SourceModel} {registry : ExtractorRegistry}
    {graph : Graph} (h : model.toGraph registry = .ok graph) : Graph.empty.Changes graph := by
  obtain ⟨extracted, _, hrun⟩ := toGraph_eq_ok_iff.mp h
  have hbuild := Edit.changes_build model extracted .empty Graph.empty .refl
  rwa [Edit.after_of_run_ok hrun] at hbuild

end OpGraph
