import OpGraph.Infer.Run
import OpGraph.Proofs.Graph.Order
import OpGraph.Proofs.Infer.Function

/-!
# Settled graphs

A node is settled when what is said about its outputs is what the inference function of its type
finds out from its inputs. Nothing more than the bare nodes and the feeds of a graph is needed to
say so. In a settled graph all nodes are, and none feeds itself along any path.
-/

namespace OpGraph

/-- The function that is registered for the node succeeds on the inputs with one entry for each
output. -/
def Node.ComputedBy (node : Node) (registry : InferRegistry)
    (inputs outputs : List TensorInfo) : Prop :=
  ∃ f, registry.get? node.opType = some f ∧ f node inputs = .ok outputs ∧
    outputs.length = node.outputs.length

/-- The inference function of the node succeeds on the inputs with one entry for each output. -/
def Node.Infers (node : Node) (inputs outputs : List TensorInfo) : Prop :=
  ∃ f, InferRegistry.standard.get? node.opType = some f ∧ f node inputs = .ok outputs ∧
    outputs.length = node.outputs.length

namespace Graph

/-- What is known at an input port. Where nothing feeds it nothing is asked for; what feeds it
must be resolved otherwise. -/
def known? (graph : Graph) (id : NodeId) (index : Nat) : Option TensorInfo :=
  match graph.inputSource? id index with
  | none => some .unknown
  | some source => (graph.outputInfo? source).filter (·.isResolved)

/-- What is known at the first input ports of a node. -/
def Receives (graph : Graph) (id : NodeId) (count : Nat) (inputs : List TensorInfo) : Prop :=
  inputs.length = count ∧ ∀ index, index < count → graph.known? id index = inputs[index]?

/-- What is said about the outputs of the node is what inference finds out. -/
def SettledAt (graph : Graph) (id : NodeId) : Prop :=
  ∀ bare, graph.bare? id = some bare → ∃ inputs outputs,
    graph.Receives id bare.inputs.length inputs ∧ bare.Infers inputs outputs ∧
      bare.outputs.map (·.info) = outputs.map some

/-- Inference has nothing to add and nothing to change. -/
structure Settled (graph : Graph) : Prop where
  /-- The records agree. -/
  coherent : graph.Coherent
  /-- There is an order for inference. -/
  acyclic : graph.Acyclic
  /-- Each node says what inference finds out. -/
  inferred : ∀ id, graph.SettledAt id
  /-- Poolings deliver something. -/
  pooling : ∀ id bare, graph.bare? id = some bare → bare.opType = "Pooling" → bare.outputs ≠ []

end Graph

/-! ### Inference functions -/

/-- A function gives each output one entry. -/
theorem Node.ComputedBy.length_eq {node : Node} {registry : InferRegistry}
    {inputs outputs : List TensorInfo} (h : node.ComputedBy registry inputs outputs) :
    outputs.length = node.outputs.length := by
  obtain ⟨_, _, _, hlength⟩ := h
  exact hlength

namespace Node.Infers

variable {node other : Node} {inputs outputs : List TensorInfo}

/-- Each output gets one entry. -/
theorem length_eq (h : node.Infers inputs outputs) : outputs.length = node.outputs.length :=
  Node.ComputedBy.length_eq h

/-- The function that succeeds is the one that is registered for the type. -/
theorem eq_ok (h : node.Infers inputs outputs) {f : InferFn}
    (hf : InferRegistry.standard.get? node.opType = some f) : f node inputs = .ok outputs := by
  obtain ⟨own, hown, hok, _⟩ := h
  rw [hf, Option.some.injEq] at hown
  rw [hown]
  exact hok

/-- Only the function of the type, the attributes and the number of outputs of a node matter. -/
theorem congr (h : node.Infers inputs outputs)
    (htype : InferRegistry.standard.get? other.opType = InferRegistry.standard.get? node.opType)
    (hattributes : other.attributes = node.attributes)
    (hcount : other.outputs.length = node.outputs.length) : other.Infers inputs outputs := by
  obtain ⟨f, hf, hok, hlength⟩ := h
  refine ⟨f, by rw [htype, hf], ?_, by rw [hcount, hlength]⟩
  rcases Infer.uniform_of_get?_standard hf with huniform | ⟨_, rfl⟩
  · obtain ⟨info, _, hall⟩ := huniform node inputs outputs hok
    have hown := hall node rfl
    rw [hok, Except.ok.injEq] at hown
    rw [hall other hattributes, hown, Infer.replicate, Infer.replicate, hcount]
  · exact hok

/-- Whatever inference finds out is resolved. -/
theorem isResolved (h : node.Infers inputs outputs) {info : TensorInfo} (hmem : info ∈ outputs) :
    info.isResolved = true := by
  obtain ⟨f, hf, hok, _⟩ := h
  rcases Infer.uniform_of_get?_standard hf with huniform | ⟨_, rfl⟩
  · obtain ⟨own, hresolved, hall⟩ := huniform node inputs outputs hok
    have hown := hall node rfl
    rw [hok, Except.ok.injEq] at hown
    rw [hown] at hmem
    rw [List.eq_of_mem_replicate hmem]
    exact hresolved
  · cases hok
    cases hmem

end Node.Infers

namespace Graph

variable {graph changed : Graph} {id : NodeId} {node bare : Node} {port : PortRef}
  {inputs outputs : List TensorInfo}

/-! ### What is known at an input -/

/-- An input knows what is said about the port that feeds it. -/
theorem known?_of_inputSource? {index : Nat} {source : PortRef} {info : TensorInfo}
    (hfeed : graph.inputSource? id index = some source)
    (hinfo : graph.outputInfo? source = some info)
    (hresolved : info.isResolved = true) : graph.known? id index = some info := by
  simp only [known?, hfeed, hinfo, Option.filter_some, hresolved, if_true]

/-- What is known at an input depends on what feeds it and on what is said there. -/
theorem known?_congr {index : Nat}
    (hfeed : changed.inputSource? id index = graph.inputSource? id index)
    (hinfo : ∀ source, graph.inputSource? id index = some source →
      changed.outputInfo? source = graph.outputInfo? source) :
    changed.known? id index = graph.known? id index := by
  unfold known?
  rw [hfeed]
  cases hsource : graph.inputSource? id index with
  | none => rfl
  | some source => simp only [hinfo source hsource]

theorem Receives.congr {count : Nat} (h : graph.Receives id count inputs)
    (hknown : ∀ index, index < count → changed.known? id index = graph.known? id index) :
    changed.Receives id count inputs :=
  ⟨h.1, fun index hindex => by rw [hknown index hindex, h.2 index hindex]⟩

/-- If something is known at each input, or nothing asked for, it can be listed. -/
theorem exists_receives {count : Nat}
    (h : ∀ index, index < count → (graph.known? id index).isSome = true) :
    ∃ inputs, graph.Receives id count inputs := by
  refine ⟨(List.range count).map fun index => (graph.known? id index).getD .unknown, by simp,
    fun index hindex => ?_⟩
  obtain ⟨info, hinfo⟩ := Option.isSome_iff_exists.mp (h index hindex)
  simp [hindex, hinfo]

/-- A node that looks the same and knows the same at its inputs stays settled. -/
theorem SettledAt.congr (h : graph.SettledAt id)
    (hbare : ∀ now, changed.bare? id = some now → ∃ bare, graph.bare? id = some bare ∧
      now.opType = bare.opType ∧ now.attributes = bare.attributes ∧
        now.inputs.length = bare.inputs.length ∧
          now.outputs.map (·.info) = bare.outputs.map (·.info))
    (hknown : ∀ index, changed.known? id index = graph.known? id index) : changed.SettledAt id := by
  intro now hnow
  obtain ⟨bare, hbare, htype, hattributes, hinputs, houtputs⟩ := hbare now hnow
  obtain ⟨inputs, outputs, hreceives, hinfers, hinfo⟩ := h bare hbare
  have hcount : now.outputs.length = bare.outputs.length := by
    simpa using congrArg List.length houtputs
  refine ⟨inputs, outputs, ?_, hinfers.congr (by rw [htype]) hattributes hcount,
    houtputs.trans hinfo⟩
  rw [hinputs]
  exact hreceives.congr fun index _ => hknown index

/-- An output port of a settled node is resolved. -/
theorem SettledAt.outputInfo? (h : graph.SettledAt port.node) (hport : graph.HasPort port)
    (hdir : port.direction = .output) :
    ∃ info : TensorInfo, graph.outputInfo? port = some info ∧ info.isResolved = true := by
  obtain ⟨bare, hbare, hindex⟩ := hasPort_iff_bare?.mp hport
  obtain ⟨inputs, outputs, _, hinfers, hinfo⟩ := h bare hbare
  rw [hdir] at hindex
  change port.index < bare.outputs.length at hindex
  have hlength : port.index < outputs.length := by
    have hsame := congrArg List.length hinfo
    simp only [List.length_map] at hsame
    omega
  have hat := congrArg (·[port.index]?) hinfo
  simp only [List.getElem?_map, List.getElem?_eq_getElem hindex, List.getElem?_eq_getElem hlength,
    Option.map_some, Option.some.injEq] at hat
  refine ⟨outputs[port.index], ?_, hinfers.isResolved (List.getElem_mem hlength)⟩
  rw [outputInfo?_eq_bare?, if_pos (by simp [PortRef.isOutput, hdir]), hbare, Option.bind_some,
    List.getElem?_eq_getElem hindex]
  exact hat

/-! ### One node -/

/-- Port by port, what is known at the inputs of a node. -/
theorem Coherent.portInfo_eq_ok_iff (h : graph.Coherent) (hn : graph.node? id = some node)
    {index : Nat} {input : InputPort} (hinput : node.inputs[index]? = some input)
    {info : TensorInfo} :
    Infer.portInfo graph id input = .ok info ↔ graph.known? id index = some info := by
  have hindex : input.index = index := (h.registered.indexed id node hn).1 index input hinput
  have hslot : graph.inputConnection? id index = input.connection := by
    rw [graph.inputConnection?_of_node? hn, Node.feed?, hinput, Option.bind_some]
  unfold Infer.portInfo known?
  rw [hindex, inputInfo?]
  cases hconnection : input.connection with
  | none =>
    rw [if_pos (by rw [InputPort.isDisconnected, hconnection]; rfl), inputSource?_eq, hslot,
      hconnection]
    simp
  | some connection =>
    rw [if_neg (by simp [InputPort.isDisconnected, hconnection])]
    have hdestination := (h.linked.feed_iff id index connection).mp (by rw [hslot, hconnection])
    obtain ⟨ends, hends, _⟩ := Option.map_eq_some_iff.mp hdestination
    have hsource : graph.inputSource? id index = some ends.source := by
      rw [inputSource?_eq, hslot, hconnection]
      simp [source?, hends]
    rw [hsource, Option.bind_some]
    change _ ↔ (graph.outputInfo? ends.source).filter (·.isResolved) = some info
    generalize (graph.outputInfo? ends.source).filter (·.isResolved) = found
    cases found <;> simp

/-- Reading all input ports of a node is to receive what is known at them. -/
theorem Coherent.mapM_portInfo_eq_ok_iff (h : graph.Coherent) (hn : graph.node? id = some node) :
    node.inputs.mapM (Infer.portInfo graph id) = .ok inputs ↔
      graph.Receives id node.inputs.length inputs := by
  rw [Except.mapM_eq_ok_iff]
  refine and_congr_right fun hlength => ?_
  constructor
  · intro hall index hindex
    obtain ⟨info, hinfo, hok⟩ := hall index _ (List.getElem?_eq_getElem hindex)
    rw [hinfo]
    exact (h.portInfo_eq_ok_iff hn (List.getElem?_eq_getElem hindex)).mp hok
  · intro hall index input hinput
    have hindex := (List.getElem?_eq_some_iff.mp hinput).1
    have hlt : index < inputs.length := by omega
    refine ⟨inputs[index], List.getElem?_eq_getElem hlt, (h.portInfo_eq_ok_iff hn hinput).mpr ?_⟩
    rw [hall index hindex, List.getElem?_eq_getElem hlt]

/-- What inference finds out about a node of a coherent graph, whatever functions are registered. -/
theorem Coherent.nodeOutputs_eq_ok_iff_computedBy (h : graph.Coherent)
    (hn : graph.node? id = some node) {registry : InferRegistry} :
    Infer.nodeOutputs registry graph id node = .ok outputs ↔
      ∃ inputs, graph.Receives id node.inputs.length inputs ∧
        node.ComputedBy registry inputs outputs := by
  unfold Infer.nodeOutputs Node.ComputedBy
  cases hf : registry.get? node.opType with
  | none =>
    constructor
    · intro hok
      cases hok
    · rintro ⟨_, _, f, hf, _⟩
      cases hf
  | some f =>
    simp only [Except.bind_eq_ok_iff, h.mapM_portInfo_eq_ok_iff hn]
    constructor
    · rintro ⟨inputs, hreceives, found, hfound, hrest⟩
      split at hrest
      · cases hrest
      · rename_i hlength
        cases hrest
        exact ⟨inputs, hreceives, f, rfl, hfound, not_not.mp hlength⟩
    · rintro ⟨inputs, hreceives, _, hsame, hok, hlength⟩
      cases hsame
      refine ⟨inputs, hreceives, outputs, hok, ?_⟩
      rw [if_neg (not_not.mpr hlength)]
      rfl

/-- What inference finds out about a node of a coherent graph. -/
theorem Coherent.nodeOutputs_eq_ok_iff (h : graph.Coherent) (hn : graph.node? id = some node) :
    Infer.nodeOutputs .standard graph id node = .ok outputs ↔
      ∃ inputs, graph.Receives id node.inputs.length inputs ∧ node.Infers inputs outputs :=
  h.nodeOutputs_eq_ok_iff_computedBy hn

end Graph

end OpGraph
