import OpGraph.Proofs.Graph.Hide
import OpGraph.Proofs.Pass.Run
import OpGraph.Proofs.Pattern.Single

/-!
# Passes do not depend on what is known

A pass that succeeds on a graph succeeds in the same way when nothing is known about the outputs
of the nodes that were there from the beginning. It leaves behind the same graph, of which less
is known: what it says itself about nodes of its own it says in both cases.
-/

namespace OpGraph

namespace Edit

variable {α β : Type} {bound : Nat} {edit : Edit α} {id : NodeId} {connection : ConnectionId}
  {source destination port : PortRef}

/-- Once the numbers below the bound are given out, every success of the edit is also one without
knowledge about the nodes below the bound. -/
def Blind (bound : Nat) (edit : Edit α) : Prop :=
  ∀ graph value result, bound ≤ graph.nextNode → edit.run graph = .ok value result →
    edit.run (graph.hideBelow bound) = .ok value (result.hideBelow bound) ∧ bound ≤ result.nextNode

/-! ### Building blocks -/

theorem blind_pure (value : α) : Blind bound (pure value : Edit α) := fun _ _ _ hbound hrun => by
  cases hrun
  exact ⟨rfl, hbound⟩

theorem blind_throw (error : GraphError) : Blind bound (throw error : Edit α) :=
  fun _ _ _ _ hrun => by cases hrun

theorem blind_ofExcept (outcome : Except GraphError α) : Blind bound (ofExcept outcome) := by
  cases outcome with
  | ok value => exact blind_pure value
  | error error => exact blind_throw error

theorem blind_bind {f : α → Edit β} (hedit : Blind bound edit) (hf : ∀ value, Blind bound (f value)) :
    Blind bound (edit >>= f) := by
  intro graph value result hbound hrun
  obtain ⟨first, middle, hfirst, hrest⟩ := run_bind_eq_ok.mp hrun
  obtain ⟨hfirst, hmiddle⟩ := hedit graph first middle hbound hfirst
  obtain ⟨hrest, hresult⟩ := hf first middle value result hmiddle hrest
  exact ⟨run_bind_eq_ok.mpr ⟨first, _, hfirst, hrest⟩, hresult⟩

theorem blind_discard (hedit : Blind bound edit) : Blind bound (discard edit) :=
  blind_bind hedit fun _ => blind_pure PUnit.unit

/-- A test that passes alike without knowledge. -/
theorem blind_check {test : Graph → Except GraphError α}
    (htest : ∀ graph value, test graph = .ok value → test (graph.hideBelow bound) = .ok value) :
    Blind bound (check test) := fun graph value result hbound hrun => by
  obtain ⟨hvalue, rfl⟩ := run_check_eq_ok.mp hrun
  exact ⟨run_check_eq_ok.mpr ⟨htest graph value hvalue, rfl⟩, hbound⟩

/-- What is read of a node must not depend on what is known about its outputs. -/
theorem blind_requireNode_bind {f : Node → Edit α} (hforget : ∀ node, f node.forget = f node)
    (hf : ∀ node, Blind bound (f node)) : Blind bound (check (·.requireNode id) >>= f) :=
  fun graph value result hbound hrun => by
    obtain ⟨node, hn, hrest⟩ := run_check_bind_eq_ok.mp hrun
    obtain ⟨hrest, hresult⟩ := hf node graph value result hbound hrest
    rw [Graph.requireNode_eq_ok_iff] at hn
    refine ⟨run_check_bind_eq_ok.mpr ⟨node.forgetIf (decide (id.index < bound)), ?_, ?_⟩, hresult⟩
    · rw [Graph.requireNode_eq_ok_iff]
      exact Graph.node?_hide_of_some hn
    · unfold Node.forgetIf
      split
      · rw [hforget]
        exact hrest
      · exact hrest

/-- Reading the graph, if the rest reads it alike without knowledge. -/
theorem blind_get_bind {f : Graph → Edit α}
    (hf : ∀ graph value result, bound ≤ graph.nextNode → (f graph).run graph = .ok value result →
      (f (graph.hideBelow bound)).run (graph.hideBelow bound) = .ok value (result.hideBelow bound) ∧
        bound ≤ result.nextNode) : Blind bound (get >>= f) := hf

theorem blind_forM {f : α → Edit PUnit} (hf : ∀ item, Blind bound (f item)) (items : List α) :
    Blind bound (items.forM f) := by
  induction items with
  | nil => exact blind_pure PUnit.unit
  | cons head tail ih => exact blind_bind (hf head) fun _ => ih

theorem blind_mapM {f : α → Edit β} (hf : ∀ item, Blind bound (f item)) (items : List α) :
    Blind bound (items.mapM f) := by
  induction items with
  | nil =>
    rw [List.mapM_nil]
    exact blind_pure []
  | cons head tail ih =>
    rw [List.mapM_cons]
    exact blind_bind (hf head) fun _ => blind_bind ih fun _ => blind_pure _

theorem blind_foldlM {f : β → α → Edit β} {items : List α}
    (hf : ∀ item ∈ items, ∀ state, Blind bound (f state item)) (start : β) :
    Blind bound (items.foldlM f start) := by
  induction items generalizing start with
  | nil => exact blind_pure start
  | cons head tail ih =>
    rw [List.foldlM_cons]
    exact blind_bind (hf head (by simp) start) fun next =>
      ih (fun item hitem => hf item (List.mem_cons_of_mem head hitem)) next

/-! ### Operations -/

theorem blind_addNode (desc : NodeDesc) : Blind bound (addNode desc) :=
  fun graph _ _ hbound hrun => by
    rw [run_addNode] at hrun
    cases hrun
    rw [run_addNode, Graph.hideBelow, Graph.hideBelow, Graph.hide_insertNode]
    exact ⟨rfl, Nat.le_succ_of_le hbound⟩

/-- A node without anything known about its outputs has the ports that it has. -/
theorem forget_withInput (node : Node) : (withInput node).forget = withInput node.forget := rfl

theorem forget_withOutput (node : Node) : (withOutput node).forget = withOutput node.forget := by
  simp [withOutput, Node.forget]

theorem blind_addInputPort : Blind bound (addInputPort id) := fun graph index _ hbound hrun => by
  obtain ⟨node, hn, rfl, rfl⟩ := run_addInputPort_eq_ok.mp hrun
  refine ⟨run_addInputPort_eq_ok.mpr ⟨_, Graph.node?_hide_of_some hn, ?_, ?_⟩, hbound⟩
  · unfold Node.forgetIf
    split <;> rfl
  · exact Graph.hide_modifyNode forget_withInput

theorem blind_addOutputPort : Blind bound (addOutputPort id) := fun graph index _ hbound hrun => by
  obtain ⟨node, hn, rfl, rfl⟩ := run_addOutputPort_eq_ok.mp hrun
  refine ⟨run_addOutputPort_eq_ok.mpr ⟨_, Graph.node?_hide_of_some hn, ?_, ?_⟩, hbound⟩
  · unfold Node.forgetIf
    split
    · rw [Node.length_outputs_forget]
    · rfl
  · exact Graph.hide_modifyNode forget_withOutput

theorem blind_renameNode (name : String) : Blind bound (renameNode id name) :=
  fun graph _ result hbound hrun => by
    obtain ⟨node, hn, hcases⟩ := run_renameNode_eq_ok.mp hrun
    have hnode : (graph.hideBelow bound).node? id = some (node.forgetIf (decide (id.index < bound))) :=
      Graph.node?_hide_of_some hn
    obtain ⟨hsame, rfl⟩ | ⟨hother, hfree, rfl⟩ := hcases
    · refine ⟨run_renameNode_eq_ok.mpr ⟨_, hnode, .inl ⟨?_, rfl⟩⟩, hbound⟩
      rw [Node.name_forgetIf, hsame]
    · refine ⟨run_renameNode_eq_ok.mpr ⟨_, hnode, .inr ⟨?_, hfree, ?_⟩⟩, hbound⟩
      · rwa [Node.name_forgetIf]
      · rw [Node.name_forgetIf]
        exact Graph.hide_rename node.name name

theorem blind_connect : Blind bound (connect source destination) :=
  fun graph _ _ hbound hrun => by
    obtain ⟨hcheck, rfl, rfl⟩ := run_connect_eq_ok.mp hrun
    refine ⟨run_connect_eq_ok.mpr ⟨?_, rfl, Graph.hide_insertConnection source destination⟩, hbound⟩
    rw [Graph.checkConnect_eq_ok_iff] at hcheck ⊢
    simpa only [Graph.hideBelow, Graph.hasPort_hide, Graph.inputConnection?_hide] using hcheck

theorem blind_disconnect : Blind bound (disconnect connection) := fun graph ends _ hbound hrun => by
  obtain ⟨hends, rfl⟩ := run_disconnect_eq_ok.mp hrun
  exact ⟨run_disconnect_eq_ok.mpr ⟨hends, Graph.hide_eraseConnection connection ends⟩, hbound⟩

theorem blind_rewireSource : Blind bound (rewireSource connection port) :=
  fun graph _ _ hbound hrun => by
    obtain ⟨ends, hends, hdir, hport, rfl⟩ := run_rewireSource_eq_ok.mp hrun
    have hport : (graph.hideBelow bound).HasPort port := Graph.hasPort_hide.mpr hport
    refine ⟨run_rewireSource_eq_ok.mpr ⟨ends, hends, hdir, hport, ?_⟩, ?_⟩
    · split
      · rfl
      · exact Graph.hide_moveSource connection ends.source port
    · split
      · exact hbound
      · exact hbound

theorem blind_removeNode : Blind bound (discard (removeNode id .strict)) :=
  fun graph _ _ hbound hrun => by
    obtain ⟨node, hrun⟩ := run_discard_eq_ok.mp hrun
    obtain ⟨hn, hattached, rfl⟩ := run_removeNode_strict_eq_ok.mp hrun
    refine ⟨run_discard_eq_ok.mpr ⟨_, run_removeNode_strict_eq_ok.mpr
      ⟨Graph.node?_hide_of_some hn, ?_, ?_⟩⟩, hbound⟩
    · unfold Node.forgetIf
      split
      · rw [Node.connectionIds_forget, hattached]
      · exact hattached
    · rw [Node.name_forgetIf]
      exact Graph.hide_eraseNode node.name

/-- A change of a node in place that commutes with forgetting. -/
theorem blind_changeNode {f : Node → Node} (hf : ∀ node, (f node).forget = f node.forget) :
    Blind bound
      (discard (check (·.requireNode id)) >>= fun _ => modify (·.modifyNode id f) : Edit Unit) :=
  fun graph _ _ hbound hrun => by
    obtain ⟨hn, rfl⟩ := run_changeNode_eq_ok.mp hrun
    exact ⟨run_changeNode_eq_ok.mpr ⟨by rw [Graph.hideBelow, Graph.isSome_node?_hide, hn],
      Graph.hide_modifyNode hf⟩, hbound⟩

theorem blind_setOpType (opType : String) : Blind bound (setOpType id opType) :=
  blind_changeNode fun _ => rfl

theorem blind_removeAttributes (names : List String) : Blind bound (removeAttributes id names) :=
  blind_changeNode fun _ => rfl

/-- A new node is not hidden, so what is said about it is seen. -/
theorem blind_addNode_annotate (desc : NodeDesc) (info : TensorInfo) {f : NodeId → Edit α}
    (hf : ∀ id, Blind bound (f id)) :
    Blind bound (addNode desc >>= fun id => annotate (.output id 0) info >>= fun _ => f id) := by
  intro graph value result hbound hrun
  obtain ⟨id, added, hadd, hrun⟩ := run_bind_eq_ok.mp hrun
  rw [run_addNode] at hadd
  cases hadd
  obtain ⟨_, annotated, hannotate, hrest⟩ := run_bind_eq_ok.mp hrun
  obtain ⟨hdir, hport, hnone, rfl⟩ := run_annotate_eq_ok.mp hannotate
  have hvisible : decide (graph.nextNode < bound) = false := by
    rw [decide_eq_false_iff_not]
    omega
  have hadded : (graph.hideBelow bound).insertNode desc = (graph.insertNode desc).hideBelow bound :=
    (Graph.hide_insertNode desc).symm
  obtain ⟨hrest, hresult⟩ := hf _ _ value result (Nat.le_succ_of_le hbound) hrest
  refine ⟨run_bind_eq_ok.mpr ⟨⟨graph.nextNode⟩, _, run_addNode desc _, ?_⟩, hresult⟩
  rw [hadded]
  refine run_bind_eq_ok.mpr ⟨(), _, run_annotate_eq_ok.mpr ⟨hdir, Graph.hasPort_hide.mpr hport, ?_, rfl⟩,
    ?_⟩
  · rw [Graph.hideBelow, Graph.outputInfo?_hide, hnone, ite_self]
  · rw [← hrest, Graph.hideBelow, Graph.hideBelow, Graph.hide_annotate_of_visible info hvisible]

/-! ### The standard passes -/

theorem blind_terminatePorts (ports : List Nat) : Blind bound (terminatePorts id ports) := by
  refine blind_requireNode_bind (fun node => ?_) fun node => ?_
  · rw [Node.disconnectedOutputs_forget]
    rfl
  · refine blind_bind (blind_forM (fun index => blind_check fun graph _ hport => ?_) ports) fun _ =>
      blind_mapM (fun index => ?_) _
    · rw [Graph.checkPort_eq_ok_iff] at hport ⊢
      exact Graph.hasPort_hide.mpr hport
    · exact blind_bind (blind_addNode _) fun _ => blind_bind (blind_discard blind_connect) fun _ =>
        blind_pure _

theorem blind_terminate : Blind bound (terminate id) :=
  blind_requireNode_bind (fun node => by rw [Node.disconnectedOutputs_forget])
    fun node => blind_terminatePorts node.disconnectedOutputs

theorem blind_canonizeGather (found : Match) : Blind bound (canonizeGather found) := by
  refine blind_bind (blind_ofExcept _) fun id => blind_requireNode_bind (fun _ => rfl) fun node =>
    blind_bind (blind_ofExcept _) fun axis => blind_bind (blind_check fun graph _ hfree => ?_) fun _ =>
      blind_addNode_annotate _ _ fun const => ?_
  · unfold checkAxisInput at hfree ⊢
    rw [Graph.hideBelow, Graph.inputConnection?_hide]
    split at hfree
    · cases hfree
    · exact if_neg ‹_›
  · exact blind_bind (blind_forM (fun _ => blind_discard blind_addInputPort) _) fun _ =>
      blind_bind (blind_discard blind_connect) fun _ =>
        blind_bind (blind_removeAttributes _) fun _ => blind_setOpType _

/-- The port for the positions is hidden with its node or tells what is told of the maxima. -/
theorem blind_addIndicesPort : Blind bound (addIndicesPort id) := by
  refine blind_get_bind fun graph _ result hbound hrun => ?_
  obtain ⟨indices, added, hadd, hrest⟩ := run_bind_eq_ok.mp hrun
  obtain ⟨hadd, hadded⟩ := blind_addOutputPort graph indices added hbound hadd
  cases hvisible : decide (id.index < bound) with
  | true =>
    have hnone : (graph.hideBelow bound).outputInfo? (.output id 0) = none := by
      rw [Graph.hideBelow, Graph.outputInfo?_hide]
      exact if_pos hvisible
    rw [hnone]
    cases hinfo : graph.outputInfo? (.output id 0) with
    | none =>
      rw [hinfo] at hrest
      cases hrest
      exact ⟨run_bind_eq_ok.mpr ⟨indices, _, hadd, rfl⟩, hadded⟩
    | some info =>
      rw [hinfo] at hrest
      obtain ⟨_, _, _, rfl⟩ := run_annotate_eq_ok.mp hrest
      have hsame : (added.modifyOutput (.output id indices) ({ · with info := some info })).hideBelow
          bound = added.hideBelow bound := Graph.hide_annotate_of_hidden info hvisible
      refine ⟨run_bind_eq_ok.mpr ⟨indices, _, hadd, ?_⟩, hadded⟩
      rw [hsame]
      rfl
  | false =>
    have hsame : (graph.hideBelow bound).outputInfo? (.output id 0) =
        graph.outputInfo? (.output id 0) := by
      rw [Graph.hideBelow, Graph.outputInfo?_hide]
      exact if_neg (Bool.not_eq_true _ ▸ hvisible)
    rw [hsame]
    cases hinfo : graph.outputInfo? (.output id 0) with
    | none =>
      rw [hinfo] at hrest
      cases hrest
      exact ⟨run_bind_eq_ok.mpr ⟨indices, _, hadd, rfl⟩, hadded⟩
    | some info =>
      rw [hinfo] at hrest
      obtain ⟨hdir, hport, hnone, rfl⟩ := run_annotate_eq_ok.mp hrest
      refine ⟨run_bind_eq_ok.mpr ⟨indices, _, hadd, run_annotate_eq_ok.mpr
        ⟨hdir, Graph.hasPort_hide.mpr hport, ?_, ?_⟩⟩, hadded⟩
      · rw [Graph.hideBelow, Graph.outputInfo?_hide, hnone, ite_self]
      · exact Graph.hide_annotate_of_visible info hvisible

theorem blind_canonizeMaxPool (found : Match) : Blind bound (canonizeMaxPool found) := by
  refine blind_bind (blind_ofExcept _) fun id => blind_requireNode_bind (fun node => ?_) fun node => ?_
  · rw [Node.length_outputs_forget]
  · have hrest : Blind bound (do
        setOpType id "MaxPool"
        removeAttributes id ["pool_method", "exclude_pad"]
        discard (terminate id)) :=
      blind_bind (blind_setOpType _) fun _ =>
        blind_bind (blind_removeAttributes _) fun _ => blind_discard blind_terminate
    by_cases hports : node.outputs.length < 2
    · rw [if_pos hports]
      exact blind_bind blind_addIndicesPort fun _ => hrest
    · rw [if_neg hports]
      exact hrest

theorem blind_canonizeAvgPool (found : Match) : Blind bound (canonizeAvgPool found) :=
  blind_bind (blind_ofExcept _) fun _ => blind_bind (blind_setOpType _) fun _ =>
    blind_bind (blind_removeAttributes _) fun _ => blind_discard blind_terminate

theorem blind_bypassMarker (marker : Node) :
    Blind bound (bypassMarker id marker connection source) :=
  blind_bind (blind_forM (fun _ => blind_rewireSource) _) fun _ =>
    blind_bind (blind_discard blind_disconnect) fun _ =>
      blind_bind (blind_renameNode _) fun _ =>
        blind_bind (blind_renameNode _) fun _ => blind_removeNode

theorem blind_resolveMarker (found : Match) : Blind bound (resolveMarker found) := by
  refine blind_bind (blind_ofExcept _) fun id => blind_requireNode_bind (fun marker => ?_) fun marker =>
    blind_bind (blind_check fun graph feed hfeed => ?_) fun feed =>
      blind_bind (blind_check fun graph ends hends => ?_) fun ends =>
        blind_requireNode_bind (fun producer => ?_) fun producer => ?_
  · simp only [bypassMarker, Node.outgoing_forget]
    rfl
  · unfold markerFeed at hfeed ⊢
    rwa [Graph.hideBelow, Graph.inputConnection?_hide]
  · exact hends
  · rw [Node.usedOutputs_forget]
  · by_cases hsingle : producer.usedOutputs = 1
    · rw [if_pos hsingle]
      exact blind_bypassMarker marker
    · rw [if_neg hsingle]
      exact blind_setOpType _

theorem blind_apply_standard {pass : Pass} (hpass : pass ∈ PassRegistry.standard) (found : Match) :
    Blind bound (pass.apply found) := by
  simp only [PassRegistry.standard, List.mem_cons, List.not_mem_nil, or_false] at hpass
  rcases hpass with rfl | rfl | rfl | rfl
  · exact blind_resolveMarker found
  · exact blind_canonizeMaxPool found
  · exact blind_canonizeAvgPool found
  · exact blind_canonizeGather found

/-! ### Runs -/

/-- Conditions of patterns do not ask what is known. -/
theorem accepts_forgetIf (pattern : NodePattern) (hidden : Bool) (node : Node) :
    pattern.accepts (node.forgetIf hidden) = pattern.accepts node := by
  cases hidden <;> rfl

theorem candidates_hide (hidden : NodeId → Bool) (graph : Graph) (pattern : NodePattern) :
    Pattern.candidates (graph.hide hidden) pattern = Pattern.candidates graph pattern := by
  simp only [Pattern.candidates, Graph.hide, OrderedMap.mapValues, List.filter_map, List.map_map]
  congr 1
  exact List.filter_congr fun entry _ => accepts_forgetIf pattern _ entry.2

theorem findAll_hide (pattern : Pattern) (hidden : NodeId → Bool) (graph : Graph) :
    pattern.findAll (graph.hide hidden) = pattern.findAll graph := by
  have hextensions : ∀ nodes bound, pattern.extensions (graph.hide hidden) nodes bound =
      pattern.extensions graph nodes bound := by
    intro nodes
    induction nodes with
    | nil => exact fun _ => rfl
    | cons node rest ih =>
      intro bound
      simp only [Pattern.extensions, candidates_hide, ih]
      rfl
  unfold Pattern.findAll
  rw [hextensions]

theorem stillMatches_hide (pattern : Pattern) (hidden : NodeId → Bool) (graph : Graph)
    (found : Match) : pattern.stillMatches (graph.hide hidden) found =
      pattern.stillMatches graph found := by
  have hnodes : ∀ (node : NodePattern) id, ((graph.hide hidden).node? id).any node.accepts =
      (graph.node? id).any node.accepts := fun node id => by
    rw [Graph.node?_hide]
    cases graph.node? id with
    | none => rfl
    | some own => exact accepts_forgetIf node _ own
  unfold Pattern.stillMatches
  simp only [hnodes]
  rfl

theorem anchorName_hide (hidden : NodeId → Bool) (graph : Graph) (found : Match) :
    found.anchorName (graph.hide hidden) = found.anchorName graph := by
  unfold Match.anchorName
  cases found.anchor? with
  | none => rfl
  | some id =>
    simp only [Option.bind_some, Graph.node?_hide]
    cases graph.node? id <;> simp

/-- A run of a pass is blind if the pass is. -/
theorem blind_run_pass {pass : Pass} (verify : Bool) (happly : ∀ found, Blind bound (pass.apply found)) :
    Blind bound (pass.run verify) := by
  refine blind_get_bind fun graph value result hbound hrun => ?_
  rw [Graph.hideBelow, findAll_hide]
  refine blind_foldlM (fun found _ stats => ?_) _ graph value result hbound hrun
  refine blind_get_bind fun graph value result hbound hrun => ?_
  rw [Graph.hideBelow, stillMatches_hide, anchorName_hide]
  by_cases hstale : (!pass.pattern.stillMatches graph found) = true
  · rw [if_pos hstale] at hrun ⊢
    exact blind_pure _ graph value result hbound hrun
  · rw [if_neg hstale] at hrun ⊢
    refine blind_bind (happly found) (fun _ => blind_get_bind fun graph value result hbound hrun => ?_)
      graph value result hbound hrun
    rw [Graph.hideBelow, stillMatches_hide]
    by_cases hfailed : (verify && pass.pattern.stillMatches graph found) = true
    · rw [if_pos hfailed] at hrun
      cases hrun
    · rw [if_neg hfailed] at hrun ⊢
      exact blind_pure _ graph value result hbound hrun

/-- Runs of standard passes are blind. -/
theorem blind_run_passes {registry : PassRegistry} (verify : Bool)
    (hregistry : ∀ pass ∈ registry, pass.Standard) : Blind bound (registry.run verify) := by
  refine blind_bind (blind_ofExcept _) fun order => blind_foldlM (fun pass hmem stats => ?_) _
  obtain ⟨name, _, hname⟩ := List.mem_filterMap.mp hmem
  obtain ⟨builtIn, hbuiltIn, _, happly⟩ :=
    (hregistry pass (List.mem_of_find?_eq_some hname)).exists_mem
  exact blind_bind (blind_run_pass verify fun found => happly ▸ blind_apply_standard hbuiltIn found)
    fun _ => blind_pure _

end Edit

end OpGraph
