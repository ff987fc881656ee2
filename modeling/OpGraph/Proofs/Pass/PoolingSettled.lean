import OpGraph.Proofs.Infer.Frame
import OpGraph.Proofs.Pass.PoolingNode
import OpGraph.Proofs.Pattern.Single

/-!
# Canonical poolings leave settled graphs behind

Terminals say nothing and feed nothing, so attaching them changes nothing that is known. A pooling
of a known method looks at the same attributes as a generic one, and it says of a new output what
it says of the others.
-/

namespace OpGraph

open Edit

namespace Graph

variable {graph result : Graph} {id terminal : NodeId} {bare : Node} {source port : PortRef}

/-! ### Terminals -/

/-- A new graph output has nothing to say. -/
theorem Settled.insertNode_result (h : graph.Settled) {desc : NodeDesc} (htype : desc.opType = "Result")
    (houtputs : desc.outputs = 0) : (graph.insertNode desc).Settled := by
  refine h.of_next [] (h.coherent.change (.insertNode desc))
    (fun other hother => by rw [bare?_insertNode, if_neg hother])
    (h.coherent.inputSource?_insertNode desc)
    (by rw [bare?_insertNode, if_pos rfl]) ⟨Infer.result, ?_, rfl, ?_⟩ ?_ ?_
  · change InferRegistry.standard.get? desc.opType = some Infer.result
    rw [htype]
    rfl
  · simp [newNode, houtputs]
  · simp [newNode, houtputs]
  · change desc.opType ≠ "Pooling"
    rw [htype]
    decide

/-- A graph output may be connected to every output port, as long as it feeds nothing itself. -/
theorem Settled.insertConnection_result (h : graph.Settled) {destination : PortRef}
    (hcheck : graph.checkConnect source destination = .ok ())
    (hbare : graph.bare? destination.node = some bare) (htype : bare.opType = "Result")
    (hlast : ∀ other, ¬ graph.Reads other destination.node)
    (hother : source.node ≠ destination.node) :
    (graph.insertConnection source destination).Settled := by
  obtain ⟨hdir, _, hport, _, _⟩ := (graph.checkConnect_eq_ok_iff _ _).mp hcheck
  have hframe := h.coherent.frame_insertConnection hcheck
  refine hframe.settled h (h.acyclic.extend_last hother hlast (h.coherent.reads_insertConnection hcheck))
    (fun now hnow => ?_) fun now hnow hpool => ?_
  · rw [bare?_insertConnection, hbare, Option.some.injEq] at hnow
    subst hnow
    obtain ⟨old, outputs, hreceives, ⟨f, hf, hok, hlength⟩, hsaid⟩ :=
      h.inferred destination.node bare hbare
    rw [htype] at hf
    cases hf
    have hknown : ∀ index, index < bare.inputs.length → ((graph.insertConnection source
        destination).known? destination.node index).isSome = true := by
      intro index hindex
      have hfeed := h.coherent.inputSource?_insertConnection hcheck destination.node index
      split at hfeed
      · obtain ⟨info, hinfo, hresolved⟩ := (h.inferred source.node).outputInfo? hport hdir
        rw [← outputInfo?_congr bare?_insertConnection source] at hinfo
        rw [known?_of_inputSource? hfeed hinfo hresolved]
        rfl
      · have hlt : index < old.length := hreceives.1 ▸ hindex
        rw [hframe.known? hfeed, hreceives.2 index hindex, List.getElem?_eq_getElem hlt]
        rfl
    obtain ⟨inputs, hinputs⟩ := exists_receives hknown
    exact ⟨inputs, outputs, hinputs, ⟨Infer.result, by rw [htype]; rfl, hok, hlength⟩, hsaid⟩
  · rw [bare?_insertConnection] at hnow
    exact h.pooling _ now hnow hpool

end Graph

/-- A terminal leaves a settled graph behind. -/
theorem ensures_settled_addTerminal (id : NodeId) (node : Node) (index : Nat) :
    Ensures Graph.Settled (addTerminal id node index) fun _ => Graph.Settled := by
  intro graph value result h hrun
  obtain ⟨terminal, added, hadd, hrun⟩ := run_bind_eq_ok.mp hrun
  rw [run_addNode] at hadd
  cases hadd
  obtain ⟨_, connected, hconnect, hrun⟩ := run_bind_eq_ok.mp hrun
  cases hrun
  obtain ⟨connection, hconnect⟩ := run_discard_eq_ok.mp hconnect
  obtain ⟨hcheck, _, rfl⟩ := run_connect_eq_ok.mp hconnect
  have hfeed := h.coherent.inputSource?_insertNode (terminalDesc node index)
  have hlast : ∀ other, ¬ (graph.insertNode (terminalDesc node index)).Reads other ⟨graph.nextNode⟩ := by
    rintro other ⟨position, port, hport, hnode⟩
    rw [hfeed] at hport
    exact h.coherent.ne_next_of_feeds ⟨other, position, hport⟩ hnode
  have hnew : (graph.insertNode (terminalDesc node index)).bare? ⟨graph.nextNode⟩ =
      some (graph.newNode (terminalDesc node index)) := by
    rw [Graph.bare?_insertNode, if_pos rfl]
  have hother : id ≠ ⟨graph.nextNode⟩ := by
    rintro rfl
    obtain ⟨_, _, hport, _, _⟩ := (Graph.checkConnect_eq_ok_iff _ _ _).mp hcheck
    obtain ⟨bare, hbare, hindex⟩ := Graph.hasPort_iff_bare?.mp hport
    change (graph.insertNode (terminalDesc node index)).bare? ⟨graph.nextNode⟩ = some bare at hbare
    rw [hnew, Option.some.injEq] at hbare
    subst hbare
    exact Nat.not_lt_zero _ hindex
  exact (h.insertNode_result rfl rfl).insertConnection_result hcheck hnew rfl hlast hother

theorem ensures_settled_terminatePorts (id : NodeId) (ports : List Nat) :
    Ensures Graph.Settled (terminatePorts id ports) fun _ => Graph.Settled :=
  ensures_bind (ensures_check fun _ _ h _ => h) fun node =>
    ensures_bind (ensures_forM fun _ _ => ensures_check fun _ _ h _ => h) fun _ =>
      ensures_mapM fun index _ => ensures_settled_addTerminal id node index

theorem ensures_settled_terminate (id : NodeId) :
    Ensures Graph.Settled (terminate id) fun _ => Graph.Settled :=
  ensures_bind (ensures_check fun _ _ h _ => h) fun node =>
    ensures_settled_terminatePorts id node.disconnectedOutputs

/-! ### Poolings -/

/-- A node with one more output port, of which something is known already. -/
def Node.withKnown (info : TensorInfo) (node : Node) : Node :=
  { node with outputs := node.outputs ++ [⟨node.outputs.length, [], some info⟩] }

theorem Node.bare_withKnown (info : TensorInfo) (node : Node) :
    (node.withKnown info).bare = node.bare.withKnown info := by
  simp [withKnown, Node.bare]

/-- If something is known about the maxima, the same is said of the positions. -/
theorem run_addIndicesPort_eq_ok {graph result : Graph} {id : NodeId} {info : TensorInfo} {value : Unit}
    (hinfo : graph.outputInfo? (.output id 0) = some info)
    (hrun : (addIndicesPort id).run graph = .ok value result) :
    result = graph.modifyNode id (Node.withKnown info) := by
  obtain ⟨port, hport, hknown⟩ : ∃ port, graph.outputPort? id 0 = some port ∧ port.info = some info :=
    Option.bind_eq_some_iff.mp hinfo
  obtain ⟨node, hn, hfirst⟩ := Option.bind_eq_some_iff.mp hport
  cases (run_addIndicesPort hn).symm.trans hrun
  refine Graph.modifyNode_congr fun own hown => ?_
  rw [hn, Option.some.injEq] at hown
  rw [← hown, Node.withIndices, hfirst, Option.bind_some, hknown, Node.withKnown]

/-- A pooling says of a new output what it says of the others. -/
theorem Graph.Settled.withKnown {graph : Graph} {id : NodeId} {info : TensorInfo}
    (h : graph.Settled) (htype : graph.OfType id "Pooling")
    (hinfo : graph.outputInfo? (.output id 0) = some info) :
    (graph.modifyNode id (Node.withKnown info)).Settled := by
  refine h.modifyNode (g := Node.withKnown info) (.appendOutput (some info)) (Node.bare_withKnown info)
    (fun bare _ index hindex => ?_) (fun bare inputs outputs hbare hreceives hinfers hsaid => ?_)
    fun bare _ _ => by simp [Node.withKnown]
  · simp only [Node.withKnown, List.getElem?_append_left hindex]
  · have hok := hinfers.eq_ok (f := Infer.pooling) (by rw [htype bare hbare]; rfl)
    obtain ⟨said, _, hall⟩ := Infer.uniform_pooling bare inputs outputs hok
    have hown := hall bare rfl
    rw [hok, Except.ok.injEq] at hown
    -- All outputs say the same, and the first one exists because something is known of it.
    have hsame : said = info := by
      rw [Graph.outputInfo?_output hbare] at hinfo
      have hfirst := congrArg (·[0]?) hsaid
      rw [hown] at hfirst
      simp only [List.getElem?_map, Infer.replicate] at hfirst
      cases hport : bare.outputs[0]? with
      | none =>
        rw [hport] at hinfo
        cases hinfo
      | some port =>
        have hpos : 0 < bare.outputs.length := (List.getElem?_eq_some_iff.mp hport).1
        rw [hport] at hinfo hfirst
        simp only [Option.bind_some] at hinfo
        simp only [List.getElem?_replicate, hpos, if_true, Option.map_some, hinfo,
          Option.some.injEq] at hfirst
        exact hfirst.symm
    refine ⟨inputs, Infer.replicate (bare.withKnown info) info, hreceives,
      ⟨Infer.pooling, ?_, ?_, by simp [Infer.replicate]⟩, ?_⟩
    · change InferRegistry.standard.get? bare.opType = _
      rw [htype bare hbare]
      rfl
    · rw [← hsame]
      exact hall _ rfl
    · rw [hown, hsame] at hsaid
      simp [Node.withKnown, hsaid, Infer.replicate, List.replicate_add]

/-- A new output port leaves a settled graph behind. -/
theorem ensures_settled_addIndicesPort (id : NodeId) :
    Ensures (fun graph => graph.Settled ∧ graph.OfType id "Pooling") (addIndicesPort id)
      fun _ graph => graph.Settled ∧ graph.OfType id "Pooling" := by
  rintro graph value result ⟨h, htype⟩ hrun
  have hexists : ∃ bare, graph.bare? id = some bare := by
    obtain ⟨_, _, hget, hrest⟩ := run_bind_eq_ok.mp hrun
    cases hget
    obtain ⟨_, _, hadd, _⟩ := run_bind_eq_ok.mp hrest
    obtain ⟨node, hn, _, _⟩ := run_addOutputPort_eq_ok.mp hadd
    exact ⟨node.bare, Graph.bare?_of_node? hn⟩
  obtain ⟨bare, hbare⟩ := hexists
  have hpos : 0 < bare.outputs.length :=
    List.length_pos_of_ne_nil (h.pooling id bare hbare (htype bare hbare))
  have hport : graph.HasPort (.output id 0) := Graph.hasPort_iff_bare?.mpr ⟨bare, hbare, hpos⟩
  obtain ⟨info, hinfo, _⟩ := (h.inferred id).outputInfo? hport rfl
  rw [run_addIndicesPort_eq_ok hinfo hrun]
  refine ⟨h.withKnown htype hinfo, fun now hnow => ?_⟩
  rw [Graph.bare?_modifyNode (Node.bare_withKnown info), if_pos rfl, hbare] at hnow
  cases hnow
  exact htype bare hbare

/-- A pooling of a known method is inferred like a generic one. -/
theorem ensures_settled_setMethod {id : NodeId} {opType : String}
    (hf : InferRegistry.standard.get? opType = InferRegistry.standard.get? "Pooling")
    (hnew : opType ≠ "Pooling") :
    Ensures (fun graph => graph.Settled ∧ graph.OfType id "Pooling") (setOpType id opType)
      fun _ graph => graph.Settled ∧ graph.OfType id opType := by
  rintro graph value result ⟨h, htype⟩ hrun
  obtain ⟨_, rfl⟩ := run_setOpType_eq_ok.mp hrun
  refine ⟨h.setOpType htype hf hnew, fun now hnow => ?_⟩
  rw [Graph.bare?_modifyNode (g := ({ · with opType })) (fun _ => rfl), if_pos rfl] at hnow
  obtain ⟨_, _, rfl⟩ := Option.map_eq_some_iff.mp hnow
  rfl

/-- A pooling does without attributes at which it does not look. -/
theorem ensures_settled_removeAttributes {id : NodeId} {opType : String} {names : List String}
    (hf : InferRegistry.standard.get? opType = some Infer.pooling) (hnew : opType ≠ "Pooling")
    (hnames : ∀ name ∈ Infer.poolingAttributes, name ∉ names) :
    Ensures (fun graph => graph.Settled ∧ graph.OfType id opType) (removeAttributes id names)
      fun _ => Graph.Settled := by
  rintro graph value result ⟨h, htype⟩ hrun
  obtain ⟨_, rfl⟩ := run_removeAttributes_eq_ok.mp hrun
  refine h.retype (fun opType => opType) (·.eraseAll names)
    (fun bare inputs outputs hbare _ hinfers => ?_) fun bare hbare => by rwa [htype bare hbare]
  have hok := hinfers.eq_ok (f := Infer.pooling) (by rw [htype bare hbare, hf])
  obtain ⟨info, _, hall⟩ := Infer.pooling_of_ok hok
  have hown := hall bare fun _ _ => rfl
  rw [hok, Except.ok.injEq] at hown
  refine ⟨Infer.pooling, by rw [htype bare hbare, hf], ?_, hinfers.length_eq⟩
  rw [hown]
  exact hall _ fun name hname => Attributes.get?_eraseAll_of_notMem (hnames name hname)

/-- A match of a pooling pattern binds a generic pooling. -/
theorem ensures_generic_require (method : String) (found : Match) :
    Ensures (fun graph => graph.Settled ∧ (poolingPattern method).stillMatches graph found = true)
      (Edit.ofExcept (found.require "pool")) fun id graph => graph.Settled ∧ graph.OfType id "Pooling" :=
  ensures_ofExcept fun _ _ h hid => ⟨h.1, Pattern.ofType_of_stillMatches
    (Pattern.isSingle_constrain (Pattern.isSingle_single "pool" "Pooling") _) rfl h.2 hid⟩

/-- Making maximum poolings leaves settled graphs behind. -/
theorem ensures_settled_canonizeMaxPool (found : Match) :
    Ensures (fun graph => graph.Settled ∧ Pass.maxPool.pattern.stillMatches graph found = true)
      (canonizeMaxPool found) fun _ => Graph.Settled := by
  refine ensures_bind (ensures_generic_require "max" found) fun id => ?_
  refine ensures_bind (ensures_check fun _ _ h _ => h) fun node => ?_
  have hrest : Ensures (fun graph => graph.Settled ∧ graph.OfType id "Pooling") (do
      setOpType id "MaxPool"
      removeAttributes id ["pool_method", "exclude_pad"]
      discard (terminate id)) fun _ => Graph.Settled :=
    ensures_bind (ensures_settled_setMethod rfl (by decide)) fun _ =>
      ensures_bind (ensures_settled_removeAttributes rfl (by decide) (by decide)) fun _ =>
        ensures_discard (ensures_settled_terminate id)
  by_cases hports : node.outputs.length < 2
  · rw [if_pos hports]
    exact ensures_bind (ensures_settled_addIndicesPort id) fun _ => hrest
  · rw [if_neg hports]
    exact hrest

/-- Making average poolings leaves settled graphs behind. -/
theorem ensures_settled_canonizeAvgPool (found : Match) :
    Ensures (fun graph => graph.Settled ∧ Pass.avgPool.pattern.stillMatches graph found = true)
      (canonizeAvgPool found) fun _ => Graph.Settled :=
  ensures_bind (ensures_generic_require "avg" found) fun id =>
    ensures_bind (ensures_settled_setMethod rfl (by decide)) fun _ =>
      ensures_bind (ensures_settled_removeAttributes rfl (by decide) (by decide)) fun _ =>
        ensures_discard (ensures_settled_terminate id)

end OpGraph
