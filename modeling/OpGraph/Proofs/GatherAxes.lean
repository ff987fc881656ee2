import OpGraph.Proofs.Pass.GatherMoved
import OpGraph.Proofs.Reachable

/-!
# Gathers keep their meaning

A gather of the source has its axis as an attribute, a canonical one reads it from a constant. The
rewrite from one to the other succeeds exactly if there is an axis to move and room for it, changes
nothing when it fails, and otherwise changes nothing but what the move takes. Inference finds out
about the canonical gather what it found out before.
-/

namespace OpGraph

open Edit

variable {graph : Graph} {id : NodeId} {node now : Node} {axis : Int} {feed : ConnectionId}
  {inputs later outputs : List TensorInfo}

/-- The node is the gather as before, but for the axis, which a connection delivers now. -/
structure Node.ReadsAxis (node now : Node) (feed : ConnectionId) : Prop where
  /-- The name stays. -/
  name : now.name = node.name
  /-- The gather is canonical. -/
  opType : now.opType = "Gather"
  /-- The axis is no attribute any more. -/
  axis : now.attributes.get? "axis" = none
  /-- All other attributes stay, and a removal is on record if there was an axis. -/
  attributes : now.attributes = node.attributes.erase "axis"
  /-- There are three input ports at least, and not more than that or than before. -/
  count : now.inputs.length = max node.inputs.length 3
  /-- The connection ends at the third one. -/
  fed : now.inputs[2]? = some ⟨2, some feed⟩
  /-- The other input ports stay. -/
  kept : ∀ index < node.inputs.length, index ≠ 2 → now.inputs[index]? = node.inputs[index]?
  /-- Nothing feeds the ones that were missing. -/
  missing : ∀ index < 2, node.inputs.length ≤ index → now.inputs[index]? = some ⟨index, none⟩
  /-- Output ports stay, with what they feed and what is known about them. -/
  outputs : now.outputs = node.outputs

/-- The graph is what it was, but for the axis of one gather, which a new constant holds. -/
structure Graph.AxisMoved (graph : Graph) (id : NodeId) (node : Node) (axis : Int)
    (result : Graph) : Prop where
  /-- The records agree. -/
  coherent : result.Coherent
  /-- One node is added. -/
  keys : result.nodes.keys = graph.nodes.keys ++ [⟨graph.nextNode⟩]
  /-- One connection is added, from the new node to the third input of the gather. -/
  connections : result.connections.toList = graph.connections.toList ++
    [(⟨graph.nextConnection⟩, ⟨.output ⟨graph.nextNode⟩ 0, .input id 2⟩)]
  /-- The new node is a constant that holds the axis and is known to do so. -/
  const : result.node? ⟨graph.nextNode⟩ = some
    { name := graph.freshName s!"{node.name}/axis"
      opType := "Const"
      attributes := .ofList [("value", .ints [axis])]
      inputs := []
      outputs := [⟨0, [⟨graph.nextConnection⟩], some ⟨some [1], some [axis]⟩⟩] }
  /-- The gather reads the axis. -/
  gather : ∃ now, result.node? id = some now ∧ node.ReadsAxis now ⟨graph.nextConnection⟩
  /-- All other nodes stay. -/
  others : ∀ other, other ≠ id → other ≠ ⟨graph.nextNode⟩ → result.node? other = graph.node? other

/-- What is known about the tensors that the input ports of a node receive. -/
def Graph.inputInfos (graph : Graph) (id : NodeId) (node : Node) : List TensorInfo :=
  (List.range node.inputs.length).map fun index => (graph.inputInfo? id index).getD .unknown

/-! ### The move -/

/-- An attribute that was removed is absent. -/
theorem Attributes.get?_erase_self (attributes : Attributes) (name : String) :
    (attributes.erase name).get? name = none := by
  unfold erase
  split
  · exact (attributes.values.get?_erase name name).trans (if_pos rfl)
  · rename_i habsent
    exact (attributes.values.contains_eq_false_iff name).mp (Bool.not_eq_true _ ▸ habsent)

/-- A further input port carries its position, and nothing feeds it. -/
theorem Node.getElem?_withInputs (node : Node) (count : Nat) {index : Nat}
    (hold : node.inputs.length ≤ index) (hnew : index < node.inputs.length + count) :
    (node.withInputs count).inputs[index]? = some ⟨index, none⟩ := by
  simp only [withInputs]
  rw [List.getElem?_append_right hold, List.getElem?_map, List.getElem?_range' (by omega),
    Option.map_some]
  congr 2
  omega

/-- A gather that numbers its ports reads the axis after the move. -/
theorem Node.Indexed.readsAxis (h : node.Indexed) (feed : ConnectionId) :
    node.ReadsAxis (node.canonicalGather feed) feed where
  name := rfl
  opType := rfl
  axis := node.attributes.get?_erase_self "axis"
  attributes := rfl
  count := by
    simp only [canonicalGather, withInputs, List.length_modify, List.length_append, List.length_map,
      List.length_range']
    omega
  fed := by
    have hthird : ∃ slot, (node.withInputs (3 - node.inputs.length)).inputs[2]? = some ⟨2, slot⟩ := by
      by_cases hcount : node.inputs.length ≤ 2
      · exact ⟨none, node.getElem?_withInputs _ hcount (by omega)⟩
      · obtain ⟨⟨position, slot⟩, hport⟩ : ∃ port, node.inputs[2]? = some port :=
          ⟨_, List.getElem?_eq_getElem (Nat.not_le.mp hcount)⟩
        have hposition : position = 2 := h.1 2 _ hport
        exact ⟨slot, by rw [withInputs, List.getElem?_append_left (by omega), hport, hposition]⟩
    obtain ⟨slot, hslot⟩ := hthird
    rw [canonicalGather, List.getElem?_modify, hslot]
    rfl
  kept index hindex hne := by
    simp only [canonicalGather]
    rw [List.getElem?_modify_ne _ _ hne.symm, withInputs, List.getElem?_append_left hindex]
  missing index hindex hcount := by
    simp only [canonicalGather]
    rw [List.getElem?_modify_ne _ _ (by omega), node.getElem?_withInputs _ hcount (by omega)]
  outputs := rfl

/-- The whole change of the graph moves the axis. -/
theorem Graph.Coherent.axisMoved (h : graph.Coherent) (hn : graph.node? id = some node) (axis : Int)
    (hfree : graph.inputConnection? id 2 = none) :
    graph.AxisMoved id node axis (graph.moveAxis id node axis) where
  coherent := h.coherent_moveAxis axis hn hfree
  keys := h.keys_moveAxis axis
  connections := h.connections_moveAxis axis
  const := by
    rw [h.node?_moveAxis hn, if_neg (h.ne_nextNode hn).symm, if_pos rfl]
    rfl
  gather := by
    refine ⟨_, by rw [h.node?_moveAxis hn, if_pos rfl], ?_⟩
    exact (h.registered.indexed id node hn).readsAxis ⟨graph.nextConnection⟩
  others other hid hnew := by rw [h.node?_moveAxis hn, if_neg hid, if_neg hnew]

/-! ### Inference -/

/-- Inference finds out about a canonical gather what it found out with the axis as an attribute. -/
theorem Infer.gather_of_attributedGather (hok : attributedGather node inputs = .ok outputs)
    (haxis : node.attributes.int? "axis" = some axis) (hfirst : FirstTwo inputs later)
    (hthird : later[2]? = some (.ofValue [axis])) (houtputs : now.outputs = node.outputs) :
    gather now later = .ok outputs := by
  obtain ⟨own, hown, hok⟩ := attributedGather_eq_ok_iff.mp hok
  rw [haxis, Option.some.injEq] at hown
  subst hown
  obtain ⟨info, _, hall⟩ := gatherAlong_of_ok hok
  have hsame := hall node inputs (firstTwo_refl inputs)
  rw [hok, Except.ok.injEq] at hsame
  refine gather_eq_ok_iff.mpr ⟨axis, by rw [hthird]; rfl, ?_⟩
  rw [hall now later hfirst, hsame, replicate, replicate, houtputs]

/-- The axis that the rewrite reads is an attribute if inference succeeds. -/
theorem Infer.int?_axis_of_attributedGather (hok : attributedGather node inputs = .ok outputs)
    (hread : gatherAxis node = .ok axis) : node.attributes.int? "axis" = some axis := by
  obtain ⟨own, hown, _⟩ := attributedGather_eq_ok_iff.mp hok
  unfold gatherAxis at hread
  unfold Attributes.int? at hown ⊢
  obtain ⟨value, hvalue, hint⟩ := Option.bind_eq_some_iff.mp hown
  rw [hvalue] at hread ⊢
  cases value with
  | int given =>
    cases hread
    rfl
  | float | str | bool | ints | floats | strs => cases hint

section

variable (h : graph.Coherent) (hn : graph.node? id = some node) (hread : gatherAxis node = .ok axis)
  (hfree : graph.inputConnection? id 2 = none) (hnow : node.ReadsAxis now feed)
include h hn hread hfree hnow

/-- On what is known of its inputs the canonical gather gives what the gather gave. -/
theorem gather_inputInfos
    (hok : Infer.attributedGather node (graph.inputInfos id node) = .ok outputs) :
    Infer.gather now ((graph.moveAxis id node axis).inputInfos id now) = .ok outputs := by
  refine Infer.gather_of_attributedGather hok (Infer.int?_axis_of_attributedGather hok hread)
    (fun index info hindex hinfo => ?_) ?_ hnow.outputs
  · obtain ⟨hlt, rfl⟩ := List.getElem?_eq_some_iff.mp hinfo
    simp only [Graph.inputInfos, List.length_map, List.length_range] at hlt
    have hcount := hnow.count
    simp only [Graph.inputInfos, List.getElem_map, List.getElem_range]
    rw [List.getElem?_map, List.getElem?_range (by omega), Option.map_some,
      h.inputInfo?_moveAxis axis hn hfree (by omega)]
  · have hcount := hnow.count
    rw [Graph.inputInfos, List.getElem?_map, List.getElem?_range (by omega), Option.map_some,
      h.inputInfo?_axis axis hn hfree]
    rfl

/-- What inference of the graph finds out about the gather it finds out about the canonical one. -/
theorem nodeOutputs_moveAxis (htype : node.opType = "AttributedGather")
    (hnode : (graph.moveAxis id node axis).node? id = some now)
    (hok : Infer.nodeOutputs .standard graph id node = .ok outputs) :
    Infer.nodeOutputs .standard (graph.moveAxis id node axis) id now = .ok outputs := by
  obtain ⟨inputs, hreceives, hinfers⟩ := (h.nodeOutputs_eq_ok_iff hn).mp hok
  have hgather := hinfers.eq_ok (f := Infer.attributedGather) (by rw [htype]; rfl)
  have hcount := hnow.count
  obtain ⟨later, hlater⟩ : ∃ later,
      (graph.moveAxis id node axis).Receives id now.inputs.length later := by
    refine Graph.exists_receives fun index hindex => ?_
    by_cases hthird : index = 2
    · rw [hthird, h.known?_axis axis hn hfree]
      rfl
    · rw [h.known?_moveAxis axis hn hfree hthird]
      by_cases hold : index < node.inputs.length
      · rw [hreceives.2 index hold, List.getElem?_eq_getElem (hreceives.1 ▸ hold)]
        rfl
      · have hnone : graph.inputSource? id index = none :=
          Option.eq_none_iff_forall_ne_some.mpr fun source hsource =>
            hold (by simpa [Node.bare] using Graph.lt_of_inputSource? hsource (Graph.bare?_of_node? hn))
        rw [Graph.known?, hnone]
        rfl
  refine ((h.coherent_moveAxis axis hn hfree).nodeOutputs_eq_ok_iff hnode).mpr
    ⟨later, hlater, Infer.gather, by rw [hnow.opType]; rfl, ?_, ?_⟩
  · refine Infer.gather_of_attributedGather hgather (Infer.int?_axis_of_attributedGather hgather hread)
      (fun index info hindex hinfo => ?_) ?_ hnow.outputs
    · have hlt := hreceives.1 ▸ (List.getElem?_eq_some_iff.mp hinfo).1
      rw [← hlater.2 index (by omega), h.known?_moveAxis axis hn hfree (by omega),
        hreceives.2 index hlt, hinfo]
    · rw [← hlater.2 2 (by omega), h.known?_axis axis hn hfree]
  · rw [hinfers.length_eq, hnow.outputs]

end

/-! ### The rewrite -/

/-- An axis can be read if there is none or if it is an integer. -/
theorem exists_gatherAxis_eq_ok_iff : (∃ axis, gatherAxis node = .ok axis) ↔
    node.attributes.get? "axis" = none ∨ ∃ axis, node.attributes.get? "axis" = some (.int axis) := by
  unfold gatherAxis
  rcases node.attributes.get? "axis" with _ | value
  · simp
  · cases value <;> simp

/-- The axis that is read is the attribute, or the first axis where it is absent. -/
theorem getD_of_gatherAxis (h : gatherAxis node = .ok axis) :
    (node.attributes.int? "axis").getD 0 = axis := by
  unfold gatherAxis at h
  unfold Attributes.int?
  rcases hvalue : node.attributes.get? "axis" with _ | value
  · rw [hvalue] at h
    cases h
    rfl
  · rw [hvalue] at h
    cases value with
    | int given =>
      cases h
      rfl
    | float | str | bool | ints | floats | strs => cases h

/-- A gather of a reachable graph can be made canonical exactly if its axis is absent or an integer
and nothing feeds its third input. A rewrite that fails leaves the graph as it was. One that succeeds
moves the axis and nothing else, and inference finds out about the gather what it found out before. -/
theorem canonizeGather_exact (hreachable : graph.Reachable) (hn : graph.node? id = some node)
    (htype : node.opType = "AttributedGather") :
    ((∃ result, (canonizeGather ⟨[("gather", id)]⟩).run graph = .ok () result) ↔
      (node.attributes.get? "axis" = none ∨
          ∃ axis, node.attributes.get? "axis" = some (.int axis)) ∧
        ∀ port, node.inputs[2]? = some port → port.isDisconnected = true) ∧
    (∀ error result, (canonizeGather ⟨[("gather", id)]⟩).run graph = .error error result →
      result = graph) ∧
    ∀ result, (canonizeGather ⟨[("gather", id)]⟩).run graph = .ok () result →
      graph.AxisMoved id node ((node.attributes.int? "axis").getD 0) result ∧
      ∀ now, result.node? id = some now → ∀ outputs,
        (Infer.attributedGather node (graph.inputInfos id node) = .ok outputs →
          Infer.gather now (result.inputInfos id now) = .ok outputs) ∧
        (Infer.nodeOutputs .standard graph id node = .ok outputs →
          Infer.nodeOutputs .standard result id now = .ok outputs) := by
  have h := hreachable.coherent
  have hslot : graph.inputConnection? id 2 = none ↔
      ∀ port, node.inputs[2]? = some port → port.isDisconnected = true := by
    rw [graph.inputConnection?_of_node? hn, Node.feed?]
    cases node.inputs[2]? <;> simp [InputPort.isDisconnected]
  refine ⟨?_, fun error result hrun => eq_of_run_canonizeGather_error h hn hrun,
    fun result hrun => ?_⟩
  · rw [exists_run_canonizeGather_iff h hn, exists_gatherAxis_eq_ok_iff, checkAxisInput_eq_ok_iff, hslot]
  · obtain ⟨axis, hread, hfree, rfl⟩ := eq_moveAxis_of_run_canonizeGather h hn hrun
    have hmoved := h.axisMoved hn axis hfree
    rw [getD_of_gatherAxis hread]
    refine ⟨hmoved, fun now hnode outputs => ?_⟩
    obtain ⟨own, hown, hnow⟩ := hmoved.gather
    rw [hown, Option.some.injEq] at hnode
    subst hnode
    exact ⟨gather_inputInfos h hn hread hfree hnow,
      nodeOutputs_moveAxis h hn hread hfree hnow htype hown⟩

/-- A gather along the last axis of a tensor of three axes. -/
def lastAxisGather : Graph :=
  [Operation.addNode { opType := "Parameter", name := some "data", outputs := 1 },
    .addNode { opType := "Parameter", name := some "indices", outputs := 1 },
    .addNode
      { opType := "AttributedGather"
        name := some "gather"
        attributes := .ofList [("axis", .int (-1))]
        inputs := 2
        outputs := 1 },
    .annotate (.output ⟨0⟩ 0) (.ofShape [2, 3, 4]),
    .annotate (.output ⟨1⟩ 0) (.ofShape [5]),
    .connect (.output ⟨0⟩ 0) (.input ⟨2⟩ 0),
    .connect (.output ⟨1⟩ 0) (.input ⟨2⟩ 1)].foldl
      (fun graph operation => operation.perform.after graph) .empty

/-- The axis moves, and five positions still take the place of the four elements. -/
theorem canonizeGather_exact_lastAxisGather : ∃ node now result,
    lastAxisGather.node? ⟨2⟩ = some node ∧ node.opType = "AttributedGather" ∧
      (canonizeGather ⟨[("gather", ⟨2⟩)]⟩).run lastAxisGather = .ok () result ∧
        lastAxisGather.AxisMoved ⟨2⟩ node (-1) result ∧ result.node? ⟨2⟩ = some now ∧
          Infer.gather now (result.inputInfos ⟨2⟩ now) = .ok [.ofShape [2, 3, 5]] := by
  have hreachable : lastAxisGather.Reachable := Graph.reachable_of_operations _
  obtain ⟨node, hn, htype, haxis, hports, hinfers⟩ : ∃ node, lastAxisGather.node? ⟨2⟩ = some node ∧
      node.opType = "AttributedGather" ∧ node.attributes.get? "axis" = some (.int (-1)) ∧
        node.inputs.length = 2 ∧
          Infer.attributedGather node (lastAxisGather.inputInfos ⟨2⟩ node) =
            .ok [.ofShape [2, 3, 5]] := ⟨_, rfl, rfl, rfl, rfl, rfl⟩
  obtain ⟨hsucceeds, _, hexact⟩ := canonizeGather_exact hreachable hn htype
  obtain ⟨result, hrun⟩ := hsucceeds.mpr ⟨.inr ⟨-1, haxis⟩, fun port hport => by
    rw [List.getElem?_eq_none (by omega)] at hport
    cases hport⟩
  obtain ⟨hmoved, hsame⟩ := hexact result hrun
  rw [Attributes.int?, haxis] at hmoved
  obtain ⟨now, hnow, _⟩ := hmoved.gather
  exact ⟨node, now, result, hn, htype, hrun, hmoved, hnow, (hsame now hnow _).1 hinfers⟩

end OpGraph
