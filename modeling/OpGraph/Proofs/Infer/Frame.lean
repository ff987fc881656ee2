import OpGraph.Proofs.Edit.Changes
import OpGraph.Proofs.Infer.Settled

/-!
# Changes around one node

A change that concerns one node only leaves all other nodes settled, as long as the outputs that
feed something say what they said. What remains to be shown is that the node itself is settled.
-/

namespace OpGraph.Graph

variable {graph result : Graph} {id : NodeId} {node : Node} {port source destination : PortRef}

/-- The result differs at one node only, and nobody is told anything else. -/
structure Frame (graph : Graph) (id : NodeId) (result : Graph) : Prop where
  /-- The records agree. -/
  coherent : result.Coherent
  /-- Other nodes stay. -/
  bare : ∀ other, other ≠ id → result.bare? other = graph.bare? other
  /-- Other nodes are fed as before. -/
  feed : ∀ other, other ≠ id → ∀ index,
    result.inputSource? other index = graph.inputSource? other index
  /-- What feeds something says the same. -/
  info : ∀ port, graph.Feeds port → port.node = id → result.outputInfo? port = graph.outputInfo? port

namespace Frame

variable (frame : graph.Frame id result)
include frame

theorem outputInfo? (hfeeds : graph.Feeds port) : result.outputInfo? port = graph.outputInfo? port := by
  by_cases hport : port.node = id
  · exact frame.info port hfeeds hport
  · rw [outputInfo?_eq_bare?, outputInfo?_eq_bare?, frame.bare port.node hport]

/-- An input that is fed as before knows what it knew. -/
theorem known? {other : NodeId} {index : Nat}
    (hfeed : result.inputSource? other index = graph.inputSource? other index) :
    result.known? other index = graph.known? other index :=
  known?_congr hfeed fun _ hsource => frame.outputInfo? ⟨other, index, hsource⟩

/-- All other nodes stay settled. -/
theorem settledAt {other : NodeId} (h : graph.SettledAt other) (hother : other ≠ id) :
    result.SettledAt other := by
  refine h.congr (fun now hnow => ?_) fun index => frame.known? (frame.feed other hother index)
  rw [frame.bare other hother] at hnow
  exact ⟨now, hnow, rfl, rfl, rfl, rfl⟩

/-- If the changed node is settled the graph is. -/
theorem settled (h : graph.Settled) (hacyclic : result.Acyclic) (hat : result.SettledAt id)
    (hpooling : ∀ bare, result.bare? id = some bare → bare.opType = "Pooling" → bare.outputs ≠ []) :
    result.Settled := by
  refine ⟨frame.coherent, hacyclic, fun other => ?_, fun other bare hbare htype => ?_⟩
  · by_cases hother : other = id
    · exact hother ▸ hat
    · exact frame.settledAt (h.inferred other) hother
  · by_cases hother : other = id
    · exact hpooling bare (hother ▸ hbare) htype
    · rw [frame.bare other hother] at hbare
      exact h.pooling other bare hbare htype

end Frame

/-- A node that does not exist yet feeds nothing. -/
theorem Coherent.ne_next_of_feeds (h : graph.Coherent) (hfeeds : graph.Feeds port) :
    port.node ≠ ⟨graph.nextNode⟩ := by
  obtain ⟨node, index, hsource⟩ := hfeeds
  obtain ⟨own, hown, _⟩ := h.hasPort_of_inputSource? hsource
  intro heq
  rw [heq, h.registered.node?_next] at hown
  cases hown

/-- A node that does not exist yet is fed by nothing. -/
theorem Coherent.inputSource?_next (h : graph.Coherent) (index : Nat) :
    graph.inputSource? ⟨graph.nextNode⟩ index = none := by
  rw [inputSource?_eq, inputConnection?_eq, h.registered.node?_next]
  rfl

/-- A change that concerns a new node only. -/
theorem Coherent.frame_next (h : graph.Coherent) (hresult : result.Coherent)
    (hbare : ∀ other, other ≠ ⟨graph.nextNode⟩ → result.bare? other = graph.bare? other)
    (hfeed : ∀ other index, result.inputSource? other index = graph.inputSource? other index) :
    graph.Frame ⟨graph.nextNode⟩ result where
  coherent := hresult
  bare := hbare
  feed other _ index := hfeed other index
  info _ hfeeds hport := absurd hport (h.ne_next_of_feeds hfeeds)

/-- A new node that says what inference finds out about it without any input leaves a settled graph
behind. -/
theorem Settled.of_next (h : graph.Settled) (outputs : List TensorInfo) (hresult : result.Coherent)
    (hbare : ∀ other, other ≠ ⟨graph.nextNode⟩ → result.bare? other = graph.bare? other)
    (hfeed : ∀ other index, result.inputSource? other index = graph.inputSource? other index)
    {new : Node} (hnew : result.bare? ⟨graph.nextNode⟩ = some new)
    (hinfers : new.Infers (List.replicate new.inputs.length .unknown) outputs)
    (hsaid : new.outputs.map (·.info) = outputs.map some) (htype : new.opType ≠ "Pooling") :
    result.Settled := by
  have hframe := h.coherent.frame_next hresult hbare hfeed
  refine hframe.settled h (h.acyclic.congr hfeed) (fun bare hown => ?_) fun bare hown hpooling => ?_
  · rw [hnew, Option.some.injEq] at hown
    subst hown
    refine ⟨_, outputs, ⟨List.length_replicate, fun index hindex => ?_⟩, hinfers, hsaid⟩
    unfold known?
    rw [hfeed, h.coherent.inputSource?_next, List.getElem?_replicate, if_pos hindex]
  · rw [hnew, Option.some.injEq] at hown
    subst hown
    exact absurd hpooling htype

/-- A new connection is the one thing that its destination reads in addition. -/
theorem Coherent.reads_insertConnection (h : graph.Coherent)
    (hcheck : graph.checkConnect source destination = .ok ()) (other from_ : NodeId)
    (hreads : (graph.insertConnection source destination).Reads other from_) :
    graph.Reads other from_ ∨ (other = destination.node ∧ from_ = source.node) := by
  obtain ⟨position, port, hport, rfl⟩ := hreads
  rw [h.inputSource?_insertConnection hcheck] at hport
  split at hport
  · rename_i hboth
    cases hport
    exact .inr ⟨hboth.1, rfl⟩
  · exact .inl ⟨position, port, hport, rfl⟩

/-- A new connection concerns its destination only. -/
theorem Coherent.frame_insertConnection (h : graph.Coherent)
    (hcheck : graph.checkConnect source destination = .ok ()) :
    graph.Frame destination.node (graph.insertConnection source destination) where
  coherent := h.change (.insertConnection hcheck)
  bare other _ := bare?_insertConnection other
  feed other hother position := by
    rw [h.inputSource?_insertConnection hcheck, if_neg fun hboth => hother hboth.1]
  info port _ _ := outputInfo?_congr bare?_insertConnection port

/-- A change of one node that leaves its slots, lists and former outputs alone. -/
theorem Coherent.frame_modifyNode (h : graph.Coherent) {f g : Node → Node} (hneutral : Node.Neutral f)
    (hbare : ∀ node, (f node).bare = g node.bare)
    (hports : ∀ bare, graph.bare? id = some bare → ∀ index, index < bare.outputs.length →
      ((g bare).outputs[index]?).bind (·.info) = (bare.outputs[index]?).bind (·.info)) :
    graph.Frame id (graph.modifyNode id f) where
  coherent := h.change (.modifyNode id hneutral)
  bare other hother := by rw [bare?_modifyNode hbare, if_neg hother]
  feed other _ index := inputSource?_modifyNode hneutral other index
  info port hfeeds hport := by
    obtain ⟨other, position, hsource⟩ := hfeeds
    obtain ⟨bare, hown, hindex⟩ := hasPort_iff_bare?.mp (h.hasPort_of_inputSource? hsource)
    rw [outputInfo?_eq_bare?, outputInfo?_eq_bare?, bare?_modifyNode hbare, if_pos hport, hown]
    cases hdir : port.direction with
    | input => simp [PortRef.isOutput, hdir]
    | output =>
      rw [hdir] at hindex
      have hsame := hports bare (hport ▸ hown) port.index hindex
      simpa [PortRef.isOutput, hdir] using hsame

/-- Such a change leaves a settled graph behind if the node is settled afterwards. -/
theorem Settled.modifyNode (h : graph.Settled) {f g : Node → Node} (hneutral : Node.Neutral f)
    (hbare : ∀ node, (f node).bare = g node.bare)
    (hports : ∀ bare, graph.bare? id = some bare → ∀ index, index < bare.outputs.length →
      ((g bare).outputs[index]?).bind (·.info) = (bare.outputs[index]?).bind (·.info))
    (hat : ∀ bare inputs outputs, graph.bare? id = some bare →
      graph.Receives id bare.inputs.length inputs → bare.Infers inputs outputs →
        bare.outputs.map (·.info) = outputs.map some →
          ∃ inputs outputs, graph.Receives id (g bare).inputs.length inputs ∧
            (g bare).Infers inputs outputs ∧ (g bare).outputs.map (·.info) = outputs.map some)
    (hpooling : ∀ bare, graph.bare? id = some bare → (g bare).opType = "Pooling" →
      (g bare).outputs ≠ []) : (graph.modifyNode id f).Settled := by
  have hframe := h.coherent.frame_modifyNode hneutral hbare hports
  have hfeed : ∀ other index,
      (graph.modifyNode id f).inputSource? other index = graph.inputSource? other index :=
    inputSource?_modifyNode hneutral
  refine hframe.settled h (h.acyclic.congr hfeed) (fun now hnow => ?_) fun now hnow htype => ?_
  · rw [bare?_modifyNode hbare, if_pos rfl] at hnow
    obtain ⟨bare, hown, rfl⟩ := Option.map_eq_some_iff.mp hnow
    obtain ⟨inputs, outputs, hreceives, hinfers, hinfo⟩ := h.inferred id bare hown
    obtain ⟨later, found, hlater, hfound, hsaid⟩ := hat bare inputs outputs hown hreceives hinfers hinfo
    exact ⟨later, found, hlater.congr fun index _ => hframe.known? (hfeed id index), hfound, hsaid⟩
  · rw [bare?_modifyNode hbare, if_pos rfl] at hnow
    obtain ⟨bare, hown, rfl⟩ := Option.map_eq_some_iff.mp hnow
    exact hpooling bare hown htype

/-- Type and attributes of a node may change as long as inference finds out the same. -/
theorem Settled.retype (h : graph.Settled) (newType : String → String)
    (newAttributes : Attributes → Attributes)
    (hat : ∀ bare inputs outputs, graph.bare? id = some bare →
      graph.Receives id bare.inputs.length inputs → bare.Infers inputs outputs →
        Node.Infers { bare with
          opType := newType bare.opType
          attributes := newAttributes bare.attributes } inputs outputs)
    (hpooling : ∀ bare, graph.bare? id = some bare → newType bare.opType ≠ "Pooling") :
    (graph.modifyNode id fun node => { node with
      opType := newType node.opType
      attributes := newAttributes node.attributes }).Settled :=
  h.modifyNode
    (g := fun node => { node with
      opType := newType node.opType
      attributes := newAttributes node.attributes })
    ⟨fun _ => rfl, fun _ _ => rfl, fun _ _ => rfl, fun _ hindexed => hindexed⟩
    (fun _ => rfl) (fun _ _ _ _ => rfl)
    (fun bare inputs outputs hown hreceives hinfers hinfo =>
      ⟨inputs, outputs, hreceives, hat bare inputs outputs hown hreceives hinfers, hinfo⟩)
    fun bare hown htype => absurd htype (hpooling bare hown)

/-- A node takes another type that is inferred in the same way. -/
theorem Settled.setOpType (h : graph.Settled) {old new : String} (htype : graph.OfType id old)
    (hf : InferRegistry.standard.get? new = InferRegistry.standard.get? old)
    (hnew : new ≠ "Pooling") : (graph.modifyNode id ({ · with opType := new })).Settled :=
  h.retype (fun _ => new) (fun attributes => attributes)
    (fun bare _ _ hbare _ hinfers => hinfers.congr (by rw [htype bare hbare, hf]) rfl rfl)
    fun _ _ => hnew

end OpGraph.Graph
