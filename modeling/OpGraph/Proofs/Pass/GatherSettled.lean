import OpGraph.Proofs.Infer.Frame
import OpGraph.Proofs.Pattern.Single

/-!
# Canonical gathers leave settled graphs behind

A gather finds the axis in an attribute first and in a constant at its third input later. The
constant is new and reads nothing, so the gather may read it. From then on the graph holds the
axis twice, and the attribute is not needed any longer.
-/

namespace OpGraph

open Edit

variable {graph : Graph} {id const : NodeId} {axis : Int}

namespace Graph

/-- A constant holds the axis of a gather, and the attribute is still there. -/
structure AxisHeld (graph : Graph) (id const : NodeId) (axis : Int) : Prop where
  /-- Inference has nothing to change. -/
  settled : graph.Settled
  /-- The gather is not canonical yet. -/
  gather : ∀ bare, graph.bare? id = some bare →
    bare.opType = "AttributedGather" ∧ bare.attributes.int? "axis" = some axis
  /-- The constant is another node. -/
  other : id ≠ const
  /-- The constant says what the axis is. -/
  said : graph.outputInfo? (.output const 0) = some (.ofValue [axis])
  /-- The constant reads nothing. -/
  first : ∀ source, ¬ graph.Reads const source

/-- A settled gather of the source has an axis, and this is what the pass finds. -/
theorem Settled.axis_of_gatherAxis (h : graph.Settled) {node : Node}
    (hn : graph.node? id = some node) (htype : graph.OfType id "AttributedGather")
    (haxis : OpGraph.gatherAxis node = .ok axis) : node.attributes.int? "axis" = some axis := by
  have hbare := bare?_of_node? hn
  obtain ⟨inputs, outputs, _, hinfers, _⟩ := h.inferred id node.bare hbare
  have hok := hinfers.eq_ok (f := Infer.attributedGather) (by rw [htype node.bare hbare]; rfl)
  obtain ⟨own, hown, _⟩ := Infer.attributedGather_eq_ok_iff.mp hok
  change node.attributes.int? "axis" = some own at hown
  unfold OpGraph.gatherAxis at haxis
  unfold Attributes.int? at hown ⊢
  cases hvalue : node.attributes.get? "axis" with
  | none =>
    rw [hvalue] at hown
    cases hown
  | some value =>
    rw [hvalue] at haxis hown
    cases value with
    | int given =>
      cases haxis
      rfl
    | float | str | bool | ints | floats | strs => cases haxis

/-! ### The constant -/

/-- The graph with a constant for the axis, which says already what it holds. -/
def holdAxis (graph : Graph) (node : Node) (axis : Int) : Graph :=
  (graph.insertNode (axisDesc node axis)).modifyOutput (.output ⟨graph.nextNode⟩ 0)
    ({ · with info := some (.ofValue [axis]) })

theorem bare?_holdAxis (graph : Graph) (node : Node) (axis : Int) (other : NodeId) :
    (graph.holdAxis node axis).bare? other =
      if other = ⟨graph.nextNode⟩ then
        some { graph.newNode (axisDesc node axis) with outputs := [⟨0, [], some (.ofValue [axis])⟩] }
      else graph.bare? other := by
  refine (bare?_modifyNode (g := fun node =>
    { node with outputs := node.outputs.modify 0 ({ · with info := some (.ofValue [axis]) }) })
    (fun node => node.bare_annotate 0 (.ofValue [axis])) _ other).trans ?_
  rw [bare?_insertNode]
  change (if other = ⟨graph.nextNode⟩ then _ else _) = _
  by_cases hnew : other = ⟨graph.nextNode⟩
  · rw [if_pos hnew, if_pos hnew, if_pos hnew]
    rfl
  · rw [if_neg hnew, if_neg hnew, if_neg hnew]

theorem Coherent.inputSource?_holdAxis (h : graph.Coherent) (node : Node) (axis : Int)
    (other : NodeId) (index : Nat) :
    (graph.holdAxis node axis).inputSource? other index = graph.inputSource? other index :=
  (inputSource?_modifyNode (.annotate 0 _) other index).trans
    (h.inputSource?_insertNode _ other index)

/-- The constant holds the axis of a gather that was there before. -/
theorem Settled.axisHeld (h : graph.Settled) (node : Node)
    (hgather : ∀ bare, graph.bare? id = some bare →
      bare.opType = "AttributedGather" ∧ bare.attributes.int? "axis" = some axis)
    (hother : id ≠ ⟨graph.nextNode⟩) :
    (graph.holdAxis node axis).AxisHeld id ⟨graph.nextNode⟩ axis := by
  have hfeed := h.coherent.inputSource?_holdAxis node axis
  have hnew := graph.bare?_holdAxis node axis ⟨graph.nextNode⟩
  rw [if_pos rfl] at hnew
  refine ⟨?_, fun bare hbare => ?_, hother, ?_, ?_⟩
  · refine h.of_next [.ofValue [axis]]
      ((h.coherent.change (.insertNode _)).change (.modifyNode _ (.annotate 0 _)))
      (fun other hother => by rw [bare?_holdAxis, if_neg hother]) hfeed hnew
      ⟨Infer.const, rfl, rfl, rfl⟩ rfl ?_
    simp [newNode, axisDesc]
  · rw [bare?_holdAxis, if_neg hother] at hbare
    exact hgather bare hbare
  · rw [outputInfo?_output hnew]
    rfl
  · intro source hreads
    obtain ⟨index, port, hport, _⟩ := hreads.congr hfeed
    rw [h.coherent.inputSource?_next] at hport
    cases hport

/-! ### The third input -/

namespace AxisHeld

variable (h : graph.AxisHeld id const axis) {bare : Node} {inputs later outputs : List TensorInfo}
include h

/-- The gather is no pooling. -/
theorem opType_ne (hbare : graph.bare? id = some bare) : bare.opType ≠ "Pooling" := by
  rw [(h.gather bare hbare).1]
  decide

/-- What inference finds out about the gather. -/
theorem gatherAlong (hbare : graph.bare? id = some bare) (hinfers : bare.Infers inputs outputs) :
    Infer.gatherAlong bare inputs axis = .ok outputs := by
  obtain ⟨htype, haxis⟩ := h.gather bare hbare
  have hok := hinfers.eq_ok (f := Infer.attributedGather) (by rw [htype]; rfl)
  obtain ⟨own, hown, hok⟩ := Infer.attributedGather_eq_ok_iff.mp hok
  rw [haxis, Option.some.injEq] at hown
  rw [hown]
  exact hok

/-- Inference finds out the same about another node with other inputs, as long as the first two of
them are the same. -/
theorem gatherAlong_of_firstTwo (hbare : graph.bare? id = some bare)
    (hinfers : bare.Infers inputs outputs) (hlater : Infer.FirstTwo inputs later) {other : Node}
    (houtputs : other.outputs = bare.outputs) : Infer.gatherAlong other later axis = .ok outputs := by
  have hown := h.gatherAlong hbare hinfers
  obtain ⟨info, _, hall⟩ := Infer.gatherAlong_of_ok hown
  have hsame := hall bare inputs (Infer.firstTwo_refl inputs)
  rw [hown, Except.ok.injEq] at hsame
  rw [hall other later hlater, hsame, Infer.replicate, Infer.replicate, houtputs]

/-- The gather does not look at its third input as long as it is not canonical. -/
theorem infers_of_firstTwo (hbare : graph.bare? id = some bare)
    (hinfers : bare.Infers inputs outputs) (hlater : Infer.FirstTwo inputs later) {other : Node}
    (htype : other.opType = bare.opType) (hattributes : other.attributes = bare.attributes)
    (houtputs : other.outputs = bare.outputs) : other.Infers later outputs := by
  obtain ⟨hown, haxis⟩ := h.gather bare hbare
  refine ⟨Infer.attributedGather, by rw [htype, hown]; rfl, ?_, ?_⟩
  · exact Infer.attributedGather_eq_ok_iff.mpr
      ⟨axis, by rw [hattributes, haxis], h.gatherAlong_of_firstTwo hbare hinfers hlater houtputs⟩
  · rw [hinfers.length_eq, houtputs]

/-- The gather gets one more input port, which nothing feeds. -/
theorem withInput : (graph.modifyNode id Edit.withInput).AxisHeld id const axis := by
  have hconst : (graph.modifyNode id Edit.withInput).bare? const = graph.bare? const := by
    rw [bare?_modifyNode bare_withInput, if_neg h.other.symm]
  refine ⟨?_, fun now hnow => ?_, h.other, ?_, ?_⟩
  · refine h.settled.modifyNode .withInput bare_withInput (fun _ _ _ _ => rfl)
      (fun bare inputs outputs hbare hreceives hinfers hsaid => ?_) fun bare hbare htype => ?_
    · refine ⟨inputs ++ [.unknown], outputs, ⟨?_, fun index hindex => ?_⟩, ?_, hsaid⟩
      · simp [Edit.withInput, hreceives.1]
      · by_cases hlast : index < bare.inputs.length
        · rw [hreceives.2 index hlast, List.getElem?_append_left (by rw [hreceives.1]; exact hlast)]
        · have heq : index = inputs.length := by
            simp only [Edit.withInput, List.length_append, List.length_singleton] at hindex
            rw [hreceives.1]
            omega
          have hnone : graph.inputSource? id index = none :=
            Option.eq_none_iff_forall_ne_some.mpr fun port hport =>
              hlast (lt_of_inputSource? hport hbare)
          rw [known?, hnone, heq, List.getElem?_concat_length]
      · refine h.infers_of_firstTwo hbare hinfers (fun index info _ hinfo => ?_) rfl rfl rfl
        rw [List.getElem?_append_left (List.getElem?_eq_some_iff.mp hinfo).1, hinfo]
    · have hne := h.opType_ne hbare
      exact absurd htype hne
  · rw [bare?_modifyNode bare_withInput, if_pos rfl] at hnow
    obtain ⟨bare, hbare, rfl⟩ := Option.map_eq_some_iff.mp hnow
    exact h.gather bare hbare
  · rw [outputInfo?_eq_bare?, ← h.said, outputInfo?_eq_bare?]
    change (if _ then ((graph.modifyNode id Edit.withInput).bare? const).bind _ else none) = _
    rw [hconst]
    rfl
  · exact fun source hreads => h.first source (hreads.congr (inputSource?_modifyNode .withInput))

/-- The gather may read the constant. -/
theorem insertConnection (hcheck : graph.checkConnect (.output const 0) (.input id 2) = .ok ()) :
    (graph.insertConnection (.output const 0) (.input id 2)).AxisHeld id const axis := by
  have hframe := h.settled.coherent.frame_insertConnection hcheck
  have hreads := h.settled.coherent.reads_insertConnection hcheck
  have hat : (graph.insertConnection (.output const 0) (.input id 2)).SettledAt id := by
    intro bare hbare
    rw [bare?_insertConnection] at hbare
    obtain ⟨inputs, outputs, hreceives, hinfers, hsaid⟩ := h.settled.inferred id bare hbare
    refine ⟨inputs.set 2 (.ofValue [axis]), outputs, ⟨?_, fun index hindex => ?_⟩, ?_, hsaid⟩
    · rw [List.length_set, hreceives.1]
    · have hfeed := h.settled.coherent.inputSource?_insertConnection hcheck id index
      by_cases hthird : index = 2
      · rw [if_pos ⟨rfl, hthird⟩] at hfeed
        rw [known?_of_inputSource? hfeed ((outputInfo?_congr bare?_insertConnection _).trans h.said) rfl,
          hthird, List.getElem?_set_self (by rw [hreceives.1, ← hthird]; exact hindex)]
      · rw [if_neg fun hboth => hthird hboth.2] at hfeed
        rw [hframe.known? hfeed, hreceives.2 index hindex, List.getElem?_set_ne (Ne.symm hthird)]
    · refine h.infers_of_firstTwo hbare hinfers (fun index info hindex hinfo => ?_) rfl rfl rfl
      rw [List.getElem?_set_ne (by omega), hinfo]
  refine ⟨hframe.settled h.settled (h.settled.acyclic.extend_first h.other h.first hreads) hat
    fun bare hbare htype => ?_, fun bare hbare => ?_, h.other, ?_, fun source hsource => ?_⟩
  · rw [bare?_insertConnection] at hbare
    exact absurd htype (h.opType_ne hbare)
  · rw [bare?_insertConnection] at hbare
    exact h.gather bare hbare
  · rw [outputInfo?_congr bare?_insertConnection, h.said]
  · rcases hreads const source hsource with hold | ⟨hsame, _⟩
    · exact h.first source hold
    · exact h.other hsame.symm

/-- A gather that reads the constant does without the attribute. -/
theorem settled_canonical (hfed : graph.inputSource? id 2 = some (.output const 0)) :
    (graph.modifyNode id fun node => { node with
      opType := "Gather"
      attributes := node.attributes.eraseAll ["axis"] }).Settled := by
  refine h.settled.retype (fun _ => "Gather") (·.eraseAll ["axis"])
    (fun bare inputs outputs hbare hreceives hinfers => ?_) fun _ _ => by decide
  have hthird : inputs[2]? = some (.ofValue [axis]) := by
    rw [← hreceives.2 2 (lt_of_inputSource? hfed hbare), known?_of_inputSource? hfed h.said rfl]
  refine ⟨Infer.gather, rfl, Infer.gather_eq_ok_iff.mpr ⟨axis, by rw [hthird]; rfl, ?_⟩,
    hinfers.length_eq⟩
  exact h.gatherAlong_of_firstTwo hbare hinfers (Infer.firstTwo_refl inputs) rfl

end AxisHeld

end Graph

/-! ### The pass -/

/-- Further input ports leave the constant where it is. -/
theorem ensures_axisHeld_addInputPorts (count : Nat) :
    Ensures (·.AxisHeld id const axis) ((List.range count).forM fun _ => discard (addInputPort id))
      fun _ graph => graph.AxisHeld id const axis :=
  ensures_forM fun _ _ => ensures_discard fun _ _ _ h hrun => by
    obtain ⟨_, _, _, rfl⟩ := run_addInputPort_eq_ok.mp hrun
    exact h.withInput

/-- Once a constant holds the axis the gather can be made canonical. -/
theorem ensures_settled_readAxis (count : Nat) :
    Ensures (·.AxisHeld id const axis) (do
        (List.range count).forM fun _ => discard (addInputPort id)
        discard (connect (.output const 0) (.input id 2))
        removeAttributes id ["axis"]
        setOpType id "Gather")
      fun _ => Graph.Settled := by
  intro graph value result h hrun
  obtain ⟨_, extended, hextend, hrun⟩ := run_bind_eq_ok.mp hrun
  have hextended := ensures_axisHeld_addInputPorts count graph _ extended h hextend
  obtain ⟨_, connected, hconnect, hrun⟩ := run_bind_eq_ok.mp hrun
  obtain ⟨connection, hconnect⟩ := run_discard_eq_ok.mp hconnect
  obtain ⟨hcheck, _, rfl⟩ := run_connect_eq_ok.mp hconnect
  have hfed := hextended.settled.coherent.inputSource?_insertConnection hcheck id 2
  rw [if_pos ⟨rfl, rfl⟩] at hfed
  -- Without the attribute the gather is not settled until it has its new type.
  obtain ⟨_, removed, hremove, htype⟩ := run_bind_eq_ok.mp hrun
  obtain ⟨_, rfl⟩ := run_removeAttributes_eq_ok.mp hremove
  obtain ⟨_, rfl⟩ := run_setOpType_eq_ok.mp htype
  rw [Graph.modifyNode_modifyNode]
  exact (hextended.insertConnection hcheck).settled_canonical hfed

/-- Canonizing gathers leaves settled graphs behind. -/
theorem ensures_settled_canonizeGather (found : Match) :
    Ensures (fun graph => graph.Settled ∧ Pass.gatherAxis.pattern.stillMatches graph found = true)
      (canonizeGather found) fun _ => Graph.Settled := by
  rintro graph value result ⟨h, hmatches⟩ hrun
  obtain ⟨id, _, hrequire, hrun⟩ := run_bind_eq_ok.mp hrun
  obtain ⟨hid, rfl⟩ := run_ofExcept_eq_ok.mp hrequire
  obtain ⟨node, _, hlook, hrun⟩ := run_bind_eq_ok.mp hrun
  obtain ⟨hfound, rfl⟩ := run_check_eq_ok.mp hlook
  obtain ⟨axis, _, hread, hrun⟩ := run_bind_eq_ok.mp hrun
  obtain ⟨haxis, rfl⟩ := run_ofExcept_eq_ok.mp hread
  obtain ⟨_, _, hfree, hrun⟩ := run_bind_eq_ok.mp hrun
  obtain ⟨_, rfl⟩ := run_check_eq_ok.mp hfree
  have hn : graph.node? id = some node := (graph.requireNode_eq_ok_iff).mp hfound
  have htype : graph.OfType id "AttributedGather" :=
    Pattern.ofType_of_stillMatches (Pattern.isSingle_single "gather" "AttributedGather") rfl hmatches hid
  have hheld : (graph.holdAxis node axis).AxisHeld id ⟨graph.nextNode⟩ axis := by
    have hattribute := h.axis_of_gatherAxis hn htype haxis
    refine h.axisHeld node (fun bare hbare => ⟨htype bare hbare, ?_⟩) ?_
    · rw [Graph.bare?_of_node? hn] at hbare
      cases hbare
      exact hattribute
    · rintro rfl
      rw [h.coherent.registered.node?_next] at hn
      cases hn
  obtain ⟨const, added, hadd, hrun⟩ := run_bind_eq_ok.mp hrun
  rw [run_addNode] at hadd
  cases hadd
  obtain ⟨_, annotated, hannotate, hrun⟩ := run_bind_eq_ok.mp hrun
  obtain ⟨_, _, _, rfl⟩ := run_annotate_eq_ok.mp hannotate
  exact ensures_settled_readAxis _ _ value result hheld hrun

end OpGraph
