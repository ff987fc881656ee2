import OpGraph.Proofs.Graph.PortOrder
import OpGraph.Proofs.Pass.MarkerBypass
import OpGraph.Proofs.Pass.Run
import OpGraph.Proofs.Pass.Schedule

/-!
# Edits and the order at output ports

All edits but two move no connection to another output port: what they do consists of changes that move
nothing. The two are the rewiring of a source and the resolution of a marker, which rewires several.
Where a marker is resolved its node goes with the ports that lose their connections, and where it is
not the run of the pass ends. So runs of passes keep the order at all ports as well. A schedule puts the
resolution of markers first, and it makes no connection: what is made later is moved no more, so new
connections are listed in the order of their creation.
-/

namespace OpGraph

open Edit

namespace Edit

variable {α β : Type} {start graph : Graph} {id : NodeId} {connection : ConnectionId}
  {port source destination : PortRef}

/-! ### Edits that move nothing -/

/-- An atomic edit moves nothing if its successful runs do not. -/
theorem Atomic.unmoved {edit : Edit α} (hedit : Atomic edit)
    (hok : ∀ graph value result, graph.Coherent → edit.run graph = .ok value result →
      graph.Unmoved result) (hstart : start.Coherent) : Keeps start.Unmoved edit :=
  hedit.keeps fun graph value result hgraph hrun =>
    hgraph.trans (hok graph value result (hstart.changes hgraph.changes) hrun)

/-- A change of a node in place moves nothing. -/
theorem unmoved_modifyNode {f : Node → Node} (hf : Node.Neutral f) (graph : Graph) (id : NodeId) :
    graph.Unmoved (graph.modifyNode id f) := .single (.of_same (.modifyNode id hf) fun _ => rfl)

theorem unmoved_addNode (desc : NodeDesc) : Keeps start.Unmoved (addNode desc) :=
  fun _ h => h.tail (.of_same (.insertNode desc) fun _ => rfl)

theorem unmoved_connect (hstart : start.Coherent) :
    Keeps start.Unmoved (connect source destination) :=
  atomic_connect.unmoved (fun graph _ result hgraph hrun => by
    obtain ⟨hcheck, _, rfl⟩ := run_connect_eq_ok.mp hrun
    exact .single (.insertConnection hgraph hcheck)) hstart

theorem unmoved_annotate (info : TensorInfo) (hstart : start.Coherent) :
    Keeps start.Unmoved (annotate port info) :=
  atomic_annotate.unmoved (fun graph _ result _ hrun => by
    obtain ⟨_, _, _, rfl⟩ := run_annotate_eq_ok.mp hrun
    exact unmoved_modifyNode (.annotate port.index info) graph port.node) hstart

theorem unmoved_changeNode {f : Node → Node} (hf : Node.Neutral f) (hstart : start.Coherent) :
    Keeps start.Unmoved
      (discard (check (·.requireNode id)) >>= fun _ => modify (·.modifyNode id f) : Edit Unit) :=
  atomic_changeNode.unmoved (fun graph _ result _ hrun => by
    obtain ⟨_, rfl⟩ := run_changeNode_eq_ok.mp hrun
    exact unmoved_modifyNode hf graph id) hstart

theorem unmoved_setOpType (opType : String) (hstart : start.Coherent) :
    Keeps start.Unmoved (setOpType id opType) :=
  unmoved_changeNode (.setOpType opType) hstart

/-- Edits that only add move nothing. -/
theorem additions_unmoved (hstart : start.Coherent) : Additions start.Unmoved where
  addNode desc _ := unmoved_addNode desc
  addInputPort id := atomic_addInputPort.unmoved (fun graph _ result _ hrun => by
    obtain ⟨_, _, _, rfl⟩ := run_addInputPort_eq_ok.mp hrun
    exact unmoved_modifyNode .withInput graph id) hstart
  addOutputPort id := atomic_addOutputPort.unmoved (fun graph _ result _ hrun => by
    obtain ⟨_, _, _, rfl⟩ := run_addOutputPort_eq_ok.mp hrun
    exact unmoved_modifyNode .withOutput graph id) hstart
  connect _ _ := unmoved_connect hstart
  annotate _ info := unmoved_annotate info hstart
  removeAttributes _ names := unmoved_changeNode (.attributes (·.eraseAll names)) hstart

theorem unmoved_reannotate (info : TensorInfo) (hstart : start.Coherent) :
    Keeps start.Unmoved (reannotate port info) :=
  atomic_reannotate.unmoved (fun graph _ result _ hrun => by
    obtain ⟨_, _, rfl⟩ := run_reannotate_eq_ok.mp hrun
    exact unmoved_modifyNode (.annotate port.index info) graph port.node) hstart

theorem unmoved_renameNode (name : String) (hstart : start.Coherent) :
    Keeps start.Unmoved (renameNode id name) :=
  atomic_renameNode.unmoved (fun graph _ result _ hrun => by
    obtain ⟨node, hn, ⟨_, rfl⟩ | ⟨_, hfree, rfl⟩⟩ := run_renameNode_eq_ok.mp hrun
    · exact .refl
    · exact .single (.of_same (.rename hn hfree) fun _ => rfl)) hstart

theorem unmoved_disconnect (hstart : start.Coherent) : Keeps start.Unmoved (disconnect connection) :=
  atomic_disconnect.unmoved (fun graph _ result _ hrun => by
    obtain ⟨hends, rfl⟩ := run_disconnect_eq_ok.mp hrun
    exact .single (.eraseConnection hends)) hstart

theorem unmoved_removeNode (mode : RemoveMode) (hstart : start.Coherent) :
    Keeps start.Unmoved (removeNode id mode) :=
  keeps_removeNode (fun _ => unmoved_disconnect hstart)
    fun _ _ _ _ hgraph hmiddle hn hloop hbare => hmiddle.tail (.of_same (.eraseNode hbare
      (detached_of_run_disconnectAll (hstart.changes hgraph.changes) hn hloop)) fun _ => rfl)

theorem unmoved_rewireDestination (hstart : start.Coherent) :
    Keeps start.Unmoved (rewireDestination connection port) :=
  atomic_rewireDestination.unmoved (fun graph _ result _ hrun => by
    obtain ⟨ends, hends, hdir, hport, ⟨_, rfl⟩ | ⟨_, hfree, rfl⟩⟩ :=
      run_rewireDestination_eq_ok.mp hrun
    · exact .refl
    · exact .single (.of_same (.moveDestination hends hdir hport hfree)
        fun id => Graph.source?_moveDestination id)) hstart

/-- An import moves nothing. -/
theorem unmoved_build (model : SourceModel) (extracted : List Extracted) (hstart : start.Coherent) :
    Keeps start.Unmoved (model.build extracted) := by
  have hdefine : ∀ names name desc, Keeps start.Unmoved (SourceModel.define names name desc) :=
    fun _ _ _ => keeps_bind (unmoved_addNode _) fun _ =>
      keeps_bind (keeps_ofExcept _) fun _ => keeps_pure _
  refine keeps_bind (keeps_foldlM (fun input _ names => ?_) ∅) fun names =>
    keeps_bind (keeps_foldlM (fun item _ names => ?_) names) fun names =>
      keeps_bind (keeps_forM fun edge _ => ?_) fun _ =>
        keeps_discard (keeps_foldlM (fun output _ names => ?_) names)
  · exact keeps_bind (hdefine _ _ _) fun _ => keeps_pure _
  · exact keeps_bind (hdefine _ _ _) fun _ => keeps_pure _
  · exact keeps_bind (keeps_ofExcept _) fun _ => keeps_bind (keeps_ofExcept _) fun _ =>
      keeps_discard (unmoved_connect hstart)
  · exact keeps_bind (keeps_ofExcept _) fun _ => keeps_bind (hdefine _ _ _) fun _ =>
      keeps_bind (unmoved_addNode _) fun _ => keeps_bind (keeps_discard (unmoved_connect hstart)) fun _ =>
        keeps_bind (keeps_discard (unmoved_connect hstart)) fun _ => keeps_pure _

end Edit

/-! ### Connections that are moved to one port -/

namespace Graph

/-- Any number of changes that keep the order at all ports and move connections to one port only. -/
structure Gathers (port : PortRef) (graph later : Graph) : Prop where
  /-- Single changes lead from the one graph to the other. -/
  changes : graph.Changes later
  /-- Every connection starts where it did or at the port. -/
  source : ∀ id, later.source? id = graph.source? id ∨ later.source? id = some port
  /-- The order is kept. -/
  queued : graph.Queued later

variable {port : PortRef} {graph middle later : Graph}

namespace Gathers

theorem refl (port : PortRef) (graph : Graph) : graph.Gathers port graph :=
  ⟨.refl, fun _ => .inl rfl, .refl graph⟩

/-- What has come to the port stays there, so that nothing comes back to another one. -/
theorem trans (h : Gathers port graph middle) (h' : Gathers port middle later)
    (hgraph : graph.Coherent) : Gathers port graph later where
  changes := h.changes.trans h'.changes
  source id := by
    rcases h'.source id with hsame | hport
    · rw [hsame]
      exact h.source id
    · exact .inr hport
  queued := by
    have hmiddle := hgraph.changes h.changes
    have hlater := hmiddle.changes h'.changes
    refine h.queued.trans_of_no_return h'.queued fun node index id hid hlast => ?_
    rw [hgraph.linked.listed_iff] at hid
    rw [hlater.linked.listed_iff] at hlast
    rw [hmiddle.linked.listed_iff]
    rcases h.source id with hsame | hport
    · rw [hsame, hid]
    · rcases h'.source id with hstays | hagain
      · rw [← hstays, hlast]
      · rw [hport, ← hagain, hlast]

end Gathers

end Graph

namespace Edit

variable {α β : Type} {start graph : Graph} {id : NodeId} {connection : ConnectionId}
  {port source : PortRef}

theorem gathers_rewireSource (hstart : start.Coherent) :
    Keeps (start.Gathers port) (rewireSource connection port) :=
  atomic_rewireSource.keeps fun graph _ result hgraph hrun => by
    obtain ⟨ends, hends, hdir, hport, rfl⟩ := run_rewireSource_eq_ok.mp hrun
    split
    · exact hgraph
    · rename_i hother
      have hchange : graph.Change (graph.moveSource connection ends.source port) :=
        .moveSource hends hdir hport hother
      refine hgraph.trans ⟨.single hchange, fun id => ?_,
        (hstart.changes hgraph.changes).queued_of_change hchange⟩ hstart
      rw [Graph.source?_moveSource]
      split
      · cases graph.source? id with
        | none => exact .inl rfl
        | some _ => exact .inr rfl
      · exact .inl rfl

/-! ### Edits that keep the order -/

/-- From the graph the edit keeps the order at all ports, and if it succeeds nothing comes back later. -/
structure QueuesAt (graph : Graph) (edit : Edit α) : Prop where
  /-- What a success leads to. -/
  success : ∀ value result, edit.run graph = .ok value result → graph.Advances result
  /-- What a failure leaves behind. -/
  failure : ∀ error result, edit.run graph = .error error result →
    graph.Changes result ∧ graph.Queued result

/-- However the edit ends, the order is kept. -/
theorem QueuesAt.queued {edit : Edit α} (h : QueuesAt graph edit) : graph.Queued (edit.after graph) := by
  cases hrun : edit.run graph with
  | ok value result =>
    rw [after_of_run_ok hrun]
    exact (h.success value result hrun).queued
  | error error result =>
    rw [after_of_run_error hrun]
    exact (h.failure error result hrun).2

/-- What moves nothing keeps the order. -/
theorem queuesAt_of_unmoved {edit : Edit α} (hgraph : graph.Coherent) (h : Keeps graph.Unmoved edit) :
    QueuesAt graph edit := by
  have hafter := h graph .refl
  constructor
  · intro value result hrun
    rw [after_of_run_ok hrun] at hafter
    exact hafter.advances hgraph
  · intro error result hrun
    rw [after_of_run_error hrun] at hafter
    exact ⟨hafter.changes, (hafter.advances hgraph).queued⟩

theorem queuesAt_pure (value : α) : QueuesAt graph (pure value) where
  success _ _ hrun := by
    cases hrun
    exact .refl graph
  failure _ _ hrun := by cases hrun

theorem queuesAt_throw (error : GraphError) : QueuesAt graph (throw error : Edit α) where
  success _ _ hrun := by cases hrun
  failure _ _ hrun := by
    cases hrun
    exact ⟨.refl, .refl graph⟩

/-- A sequence keeps the order if its parts do, since after a success of the first part nothing comes
back. -/
theorem queuesAt_bind {edit : Edit α} {f : α → Edit β} (hgraph : graph.Coherent)
    (h : QueuesAt graph edit)
    (hf : ∀ value result, edit.run graph = .ok value result → QueuesAt result (f value)) :
    QueuesAt graph (edit >>= f) := by
  constructor
  · intro value result hrun
    obtain ⟨first, middle, hfirst, hrest⟩ := run_bind_eq_ok.mp hrun
    exact (h.success first middle hfirst).trans ((hf first middle hfirst).success value result hrest) hgraph
  · intro error result hrun
    rcases run_bind_eq_error.mp hrun with hfirst | ⟨first, middle, hfirst, hrest⟩
    · exact h.failure error result hfirst
    · obtain ⟨hchanges, hqueued⟩ := (hf first middle hfirst).failure error result hrest
      have hadvances := h.success first middle hfirst
      exact ⟨hadvances.changes.trans hchanges, hadvances.queued_of_queued hgraph hchanges hqueued⟩

/-- After a check the rest starts from the same graph. -/
theorem queuesAt_check_bind {test : Graph → Except GraphError α} {f : α → Edit β}
    (hgraph : graph.Coherent) (hf : ∀ value, test graph = .ok value → QueuesAt graph (f value)) :
    QueuesAt graph (check test >>= f) := by
  refine queuesAt_bind hgraph (queuesAt_of_unmoved hgraph (keeps_check test)) fun value result hrun => ?_
  obtain ⟨hvalue, rfl⟩ := run_check_eq_ok.mp hrun
  exact hf value hvalue

/-- A look at the graph leaves it. -/
theorem queuesAt_get_bind {f : Graph → Edit α} (hf : QueuesAt graph (f graph)) :
    QueuesAt graph (get >>= f) := ⟨hf.success, hf.failure⟩

/-- A fold keeps the order if every round does. -/
theorem queuesAt_foldlM {f : β → α → Edit β} {items : List α}
    (hf : ∀ item ∈ items, ∀ state graph, graph.Coherent → QueuesAt graph (f state item)) (start : β)
    (hgraph : graph.Coherent) : QueuesAt graph (items.foldlM f start) := by
  induction items generalizing start graph with
  | nil => exact queuesAt_pure start
  | cons head tail ih =>
    rw [List.foldlM_cons]
    have hhead := hf head (by simp) start graph hgraph
    refine queuesAt_bind hgraph hhead fun next result hrun => ?_
    exact ih (fun item hitem => hf item (List.mem_cons_of_mem head hitem)) next
      (hgraph.changes (hhead.success next result hrun).changes)

/-! ### Markers -/

/-- Once its consumers are rewired, the bypass of a marker moves nothing. -/
theorem unmoved_cutOff (name : String) (producer : NodeId) (hstart : start.Coherent) :
    Keeps start.Unmoved (discard (disconnect connection) >>= fun _ => handName id name producer) :=
  keeps_bind (keeps_discard (unmoved_disconnect hstart)) fun _ =>
    keeps_bind (unmoved_renameNode _ hstart) fun _ =>
      keeps_bind (unmoved_renameNode _ hstart) fun _ =>
        keeps_discard (unmoved_removeNode .strict hstart)

/-- A node that has handed over its name is gone. -/
theorem node?_of_run_handName {name : String} {producer : NodeId} {value : Unit} {result : Graph}
    (hrun : (handName id name producer).run graph = .ok value result) : result.node? id = none := by
  obtain ⟨_, _, _, hrun⟩ := run_bind_eq_ok.mp hrun
  obtain ⟨_, _, _, hrun⟩ := run_bind_eq_ok.mp hrun
  obtain ⟨_, hremove⟩ := run_discard_eq_ok.mp hrun
  obtain ⟨_, _, rfl⟩ := run_removeNode_strict_eq_ok.mp hremove
  rw [Graph.node?_eraseNode, if_pos rfl]

/-- The bypass of a marker keeps the order, and if it succeeds the ports from which connections were
moved are gone with the marker. -/
theorem queuesAt_bypassMarker {marker : Node} (h : graph.Coherent) (hn : graph.node? id = some marker) :
    QueuesAt graph (bypassMarker id marker connection source) := by
  have hrewire : Keeps (graph.Gathers source) ((marker.outputs.flatMap (·.connections)).forM
      fun connection => rewireSource connection source) := keeps_forM fun _ _ => gathers_rewireSource h
  have hgathered := hrewire graph (.refl source graph)
  constructor
  · intro value result hrun
    obtain ⟨_, rewired, hloop, hrest⟩ := run_bind_eq_ok.mp hrun
    rw [after_of_run_ok hloop] at hgathered
    have hrewired := h.changes hgathered.changes
    have hunmoved : rewired.Unmoved result :=
      (unmoved_cutOff marker.name source.node hrewired).ensures rewired _ _ .refl hrest
    refine ⟨hgathered.changes.trans hunmoved.changes, fun other port hsource => ?_,
      hunmoved.queued_of_queued h hgathered.changes hgathered.queued⟩
    by_cases hown : port.node = id
    · obtain ⟨_, _, _, hname⟩ := run_bind_eq_ok.mp hrest
      exact .inr (.inr (hown ▸ node?_of_run_handName hname))
    · have houtside : other ∉ marker.outputs.flatMap (·.connections) := fun hmem => by
        obtain ⟨start, hstart, hnode⟩ := (h.mem_outgoing_iff hn other).mp hmem
        rw [Option.some.inj (hsource.symm.trans hstart)] at hown
        exact hown hnode
      have hstays := (resourced_of_run hloop).source other
      rw [if_neg houtside, hsource] at hstays
      exact (hunmoved.source hrewired hstays).imp_right .inl
  · intro error result hrun
    rcases run_bind_eq_error.mp hrun with hloop | ⟨_, rewired, hloop, hrest⟩
    · rw [after_of_run_error hloop] at hgathered
      exact ⟨hgathered.changes, hgathered.queued⟩
    · rw [after_of_run_ok hloop] at hgathered
      have hrewired := h.changes hgathered.changes
      have hunmoved : rewired.Unmoved result :=
        after_of_run_error hrest ▸ unmoved_cutOff marker.name source.node hrewired rewired .refl
      exact ⟨hgathered.changes.trans hunmoved.changes,
        hunmoved.queued_of_queued h hgathered.changes hgathered.queued⟩

theorem queuesAt_resolveMarker (found : Match) (h : graph.Coherent) :
    QueuesAt graph (resolveMarker found) := by
  refine queuesAt_bind h (queuesAt_of_unmoved h (keeps_ofExcept _)) fun id result hrun => ?_
  obtain ⟨_, rfl⟩ := run_ofExcept_eq_ok.mp hrun
  refine queuesAt_check_bind h fun marker hn => queuesAt_check_bind h fun feed _ =>
    queuesAt_check_bind h fun ends _ => queuesAt_check_bind h fun producer _ => ?_
  by_cases hsingle : producer.usedOutputs = 1
  · rw [if_pos hsingle]
    exact queuesAt_bypassMarker h ((graph.requireNode_eq_ok_iff).mp hn)
  · rw [if_neg hsingle]
    exact queuesAt_of_unmoved h (unmoved_setOpType "Identity" h)

/-! ### Passes -/

/-- Only the resolution of markers moves connections, and what moves nothing follows it. -/
inductive MovingFirst (pass : Pass) : Prop where
  /-- The pass resolves markers. -/
  | markers (named : pass.name = Pass.outputMarkers.name) (does : pass.apply = resolveMarker)
  /-- The pass has another name, runs after the resolution of markers and moves nothing. -/
  | others (other : pass.name ≠ Pass.outputMarkers.name) (follows : Pass.outputMarkers.name ∈ pass.after)
      (still : ∀ (found : Match) (start : Graph), start.Coherent → Keeps start.Unmoved (pass.apply found))

theorem movingFirst_of_standard {pass : Pass} (h : pass.Standard) : MovingFirst pass := by
  obtain ⟨name, enabled, pattern, after, before, apply⟩ := pass
  simp only [Pass.Standard, PassRegistry.standard, List.mem_cons, List.not_mem_nil, or_false] at h
  rcases h with h | h | h | h
  · cases h
    exact .markers rfl rfl
  · cases h
    exact .others (by simp [Pass.outputMarkers]) (List.mem_singleton.mpr rfl) fun found start hstart =>
      (additions_unmoved hstart).canonizeMaxPool fun _ _ => unmoved_setOpType _ hstart
  · cases h
    exact .others (by simp [Pass.outputMarkers]) (List.mem_singleton.mpr rfl) fun found start hstart =>
      (additions_unmoved hstart).canonizeAvgPool fun _ _ => unmoved_setOpType _ hstart
  · cases h
    exact .others (by simp [Pass.outputMarkers]) (List.mem_singleton.mpr rfl) fun found start hstart =>
      (additions_unmoved hstart).canonizeGather fun _ _ => unmoved_setOpType _ hstart

theorem queuesAt_apply_standard {pass : Pass} (hpass : pass.Standard) (found : Match)
    (h : graph.Coherent) : QueuesAt graph (pass.apply found) := by
  cases movingFirst_of_standard hpass with
  | markers _ does => exact does ▸ queuesAt_resolveMarker found h
  | others _ _ still => exact queuesAt_of_unmoved h (still found graph h)

/-- A run of a standard pass keeps the order. -/
theorem queuesAt_run_pass {pass : Pass} (hpass : pass.Standard) (verify : Bool) (h : graph.Coherent) :
    QueuesAt graph (pass.run verify) := by
  refine queuesAt_get_bind (queuesAt_foldlM (fun found _ stats graph hgraph => queuesAt_get_bind ?_) _ h)
  by_cases hstale : (!pass.pattern.stillMatches graph found) = true
  · rw [if_pos hstale]
    exact queuesAt_pure _
  · rw [if_neg hstale]
    refine queuesAt_bind hgraph (queuesAt_apply_standard hpass found hgraph) fun _ result _ =>
      queuesAt_get_bind ?_
    by_cases hfailed : (verify && pass.pattern.stillMatches result found) = true
    · rw [if_pos hfailed]
      exact queuesAt_throw _
    · rw [if_neg hfailed]
      exact queuesAt_pure _

/-- A run of standard passes keeps the order. -/
theorem queuesAt_run_passes {passes : PassRegistry} (hpasses : ∀ pass ∈ passes, pass.Standard)
    (verify : Bool) (h : graph.Coherent) : QueuesAt graph (passes.run verify) := by
  refine queuesAt_bind h (queuesAt_of_unmoved h (keeps_ofExcept _)) fun order result hrun => ?_
  obtain ⟨_, rfl⟩ := run_ofExcept_eq_ok.mp hrun
  refine queuesAt_foldlM (fun pass hmem stats graph hgraph => ?_) _ h
  obtain ⟨name, _, hname⟩ := List.mem_filterMap.mp hmem
  exact queuesAt_bind hgraph (queuesAt_run_pass (hpasses pass (List.mem_of_find?_eq_some hname)) verify
    hgraph) fun _ _ _ => queuesAt_pure _

/-! ### New connections -/

theorem barren_rewireSource : Keeps start.Barren (rewireSource connection port) :=
  atomic_rewireSource.keeps fun graph _ result hgraph hrun id hnew => by
    obtain ⟨ends, _, _, _, rfl⟩ := run_rewireSource_eq_ok.mp hrun
    have hgone := hgraph id hnew
    split
    · exact hgone
    · simp [Graph.source?_moveSource, hgone]

theorem barren_disconnect : Keeps start.Barren (disconnect connection) :=
  atomic_disconnect.keeps fun graph _ result hgraph hrun id hnew => by
    obtain ⟨_, rfl⟩ := run_disconnect_eq_ok.mp hrun
    simp [Graph.source?_eraseConnection, hgraph id hnew]

theorem barren_renameNode (name : String) : Keeps start.Barren (renameNode id name) :=
  atomic_renameNode.keeps fun graph _ result hgraph hrun => by
    obtain ⟨_, _, ⟨_, rfl⟩ | ⟨_, _, rfl⟩⟩ := run_renameNode_eq_ok.mp hrun
    · exact hgraph
    · exact hgraph

/-- The resolution of a marker makes no connection. -/
theorem barren_resolveMarker (found : Match) : Keeps start.Barren (resolveMarker found) :=
  keeps_bind (keeps_ofExcept _) fun id => keeps_bind (keeps_check _) fun marker =>
    keeps_bind (keeps_check _) fun feed => keeps_bind (keeps_check _) fun ends =>
      keeps_bind (keeps_check _) fun producer => by
        by_cases hsingle : producer.usedOutputs = 1
        · rw [if_pos hsingle]
          exact keeps_bind (keeps_forM fun _ _ => barren_rewireSource) fun _ =>
            keeps_bind (keeps_discard barren_disconnect) fun _ =>
              keeps_bind (barren_renameNode _) fun _ => keeps_bind (barren_renameNode _) fun _ =>
                keeps_discard (keeps_removeNode (fun _ => barren_disconnect)
                  fun _ _ _ _ _ hmiddle _ _ _ => hmiddle)
        · rw [if_neg hsingle]
          exact atomic_changeNode.keeps fun graph _ result hgraph hrun => by
            obtain ⟨_, rfl⟩ := run_changeNode_eq_ok.mp hrun
            exact hgraph

end Edit

namespace PassRegistry

variable {passes : PassRegistry} {order : List String}

/-- In a legal order of standard passes nothing stands in front of the resolution of markers. -/
theorem Legal.markers_first (h : passes.Legal order) (hdistinct : passes.names.Nodup)
    (hpasses : ∀ pass ∈ passes, pass.Standard) :
    ∃ first rest, order = first ++ rest ∧ (∀ name ∈ first, name = Pass.outputMarkers.name) ∧
      Pass.outputMarkers.name ∉ rest := by
  by_cases hmarkers : Pass.outputMarkers.name ∈ order
  · cases order with
    | nil => cases hmarkers
    | cons head tail =>
      have hmem : head ∈ passes.enabledNames := h.perm.mem_iff.mp List.mem_cons_self
      obtain ⟨pass, hpass, rfl⟩ := List.mem_map.mp hmem
      obtain ⟨hpass, henabled⟩ := List.mem_filter.mp hpass
      cases movingFirst_of_standard (hpasses pass hpass) with
      | markers named _ =>
        have hnodup := h.perm.nodup_iff.mpr (hdistinct.sublist passes.enabledNames_sublist)
        exact ⟨[pass.name], tail, rfl, fun name hname => (List.mem_singleton.mp hname).trans named,
          named ▸ (List.nodup_cons.mp hnodup).1⟩
      | others _ follows _ =>
        have hlt := h.ordered Pass.outputMarkers.name pass.name
          ⟨⟨pass, hpass, henabled, .inl ⟨follows, rfl⟩⟩, h.perm.mem_iff.mp hmarkers, hmem⟩
        rw [List.idxOf_cons_self] at hlt
        exact absurd hlt (Nat.not_lt_zero _)
  · exact ⟨[], order, rfl, by simp, hmarkers⟩

theorem name_of_mem_filterMap {names : List String} {pass : Pass}
    (hmem : pass ∈ names.filterMap passes.get?) : pass ∈ passes ∧ pass.name ∈ names := by
  obtain ⟨name, hname, hget⟩ := List.mem_filterMap.mp hmem
  have hnamed : pass.name = name := by simpa using List.find?_some hget
  exact ⟨List.mem_of_find?_eq_some hget, hnamed ▸ hname⟩

/-- So the passes that move nothing run after the one that moves connections. -/
theorem exists_split_of_schedule (hpasses : ∀ pass ∈ passes, pass.Standard)
    (h : passes.schedule = .ok order) :
    ∃ markers others : List Pass, order.filterMap passes.get? = markers ++ others ∧
      (∀ pass ∈ markers, pass.apply = resolveMarker) ∧
      ∀ pass ∈ others, ∀ (found : Match) (start : Graph), start.Coherent →
        Edit.Keeps start.Unmoved (pass.apply found) := by
  obtain ⟨hdistinct, _, htake⟩ := schedule_eq_ok_iff.mp h
  have hlegal := (legal_iff_takes hdistinct).mpr (takes_of_takeReady (Nat.le_refl _) htake)
  obtain ⟨first, rest, rfl, hfirst, hrest⟩ := hlegal.markers_first hdistinct hpasses
  refine ⟨first.filterMap passes.get?, rest.filterMap passes.get?, List.filterMap_append,
    fun pass hmem => ?_, fun pass hmem => ?_⟩
  · obtain ⟨hpass, hname⟩ := name_of_mem_filterMap hmem
    cases movingFirst_of_standard (hpasses pass hpass) with
    | markers _ does => exact does
    | others other _ _ => exact absurd (hfirst pass.name hname) other
  · obtain ⟨hpass, hname⟩ := name_of_mem_filterMap hmem
    cases movingFirst_of_standard (hpasses pass hpass) with
    | markers named _ => exact absurd (named ▸ hname) hrest
    | others _ _ still => exact still

end PassRegistry

namespace Edit

variable {graph : Graph}

/-- Runs of passes, one after another, keep what the passes keep with each match. -/
theorem keeps_foldlM_run {P : Graph → Prop} {passes : List Pass} {stats : PassStats} (verify : Bool)
    (h : ∀ pass ∈ passes, ∀ found, Keeps P (pass.apply found)) :
    Keeps P (passes.foldlM (fun stats pass => return stats ++ (← pass.run verify)) stats) :=
  keeps_foldlM (fun pass hmem _ => keeps_bind (keeps_run_pass verify (h pass hmem)) fun _ =>
    keeps_pure _) stats

/-- If an edit that makes no connection is followed by one that moves none, new connections are
listed in the order of their creation. -/
theorem renews_bind {α β : Type} {edit : Edit α} {f : α → Edit β} (h : graph.Coherent)
    (hchanges : Keeps graph.Changes edit) (hbarren : Keeps graph.Barren edit)
    (hf : ∀ value (middle : Graph), middle.Coherent → Keeps middle.Unmoved (f value)) :
    graph.Renews ((edit >>= f).after graph) := by
  have hreached := hchanges graph .refl
  have hsame := hbarren graph fun _ hnew => hnew
  cases hrun : edit.run graph with
  | ok value middle =>
    rw [after_of_run_ok hrun] at hreached hsame
    rw [after_bind_of_ok hrun]
    have hmiddle := h.changes hreached
    exact .of_barren hsame ((hf value middle hmiddle middle .refl).renews hmiddle)
  | error error middle =>
    rw [after_of_run_error hrun] at hreached hsame
    rw [after_bind_of_error hrun]
    exact hsame.renews (h.changes hreached).linked

/-- What is left behind does not depend on the use of the result. -/
theorem after_discard {α : Type} (edit : Edit α) (graph : Graph) :
    (discard edit).after graph = edit.after graph := by
  change (edit >>= fun _ => pure PUnit.unit).after graph = _
  cases hrun : edit.run graph with
  | ok value result =>
    rw [after_bind_of_ok hrun, after_of_run_ok hrun]
    rfl
  | error error result => rw [after_bind_of_error hrun, after_of_run_error hrun]

/-- A run of standard passes lists what is new in the order of its creation. -/
theorem renews_run_passes {passes : PassRegistry} (hpasses : ∀ pass ∈ passes, pass.Standard)
    (verify : Bool) (h : graph.Coherent) : graph.Renews ((passes.run verify).after graph) := by
  unfold PassRegistry.run
  cases hschedule : passes.schedule with
  | error error => exact Graph.Unmoved.renews .refl h
  | ok order =>
    obtain ⟨markers, others, hsplit, hmarkers, hothers⟩ :=
      PassRegistry.exists_split_of_schedule hpasses hschedule
    rw [after_bind_of_ok (run_ofExcept _ _), hsplit, List.foldlM_append]
    refine renews_bind h (keeps_foldlM_run verify fun pass hmem found => ?_)
      (keeps_foldlM_run verify fun pass hmem found => ?_) fun stats middle hmiddle =>
        keeps_foldlM_run verify fun pass hmem found => hothers pass hmem found middle hmiddle
    · exact hmarkers pass hmem ▸ changes_resolveMarker found h
    · exact hmarkers pass hmem ▸ barren_resolveMarker found

end Edit

end OpGraph
