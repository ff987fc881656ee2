import OpGraph.Proofs.Pass.Failure
import OpGraph.Proofs.Pass.GatherSettled
import OpGraph.Proofs.Graph.Spared

/-!
# What becomes of a gather

A gather whose axis can be read and whose third input is free is made canonical by one change of
the graph, which is written down here without the edits that lead to it. Every other gather stays
as it is, and the graph with it.
-/

namespace OpGraph

open Edit

variable {graph result : Graph} {id other : NodeId} {node : Node} {axis : Int} {count : Nat}

/-! ### Further input ports -/

namespace Node

/-- The node with so many more input ports, which nothing feeds. -/
def withInputs (count : Nat) (node : Node) : Node :=
  { node with inputs := node.inputs ++ (List.range' node.inputs.length count).map (⟨·, none⟩) }

theorem withInputs_zero (node : Node) : node.withInputs 0 = node := by simp [withInputs]

/-- One port after the other. -/
theorem withInputs_succ (node : Node) (count : Nat) :
    node.withInputs (count + 1) = (withInput node).withInputs count := by
  simp [withInputs, withInput, List.range'_succ]

theorem Neutral.withInputs (count : Nat) : Neutral (Node.withInputs count) := by
  induction count with
  | zero =>
    rw [show Node.withInputs 0 = fun node => node from funext withInputs_zero]
    exact ⟨fun _ => rfl, fun _ _ => rfl, fun _ _ => rfl, fun _ h => h⟩
  | succ count ih =>
    rw [show Node.withInputs (count + 1) = fun node => (Edit.withInput node).withInputs count from
      funext fun node => withInputs_succ node count]
    exact ih.comp .withInput

end Node

/-- A loop of additions is one change of the node. -/
theorem run_addInputPorts {α : Type} (hn : (graph.node? id).isSome = true) (items : List α) :
    (items.forM fun _ => discard (addInputPort id)).run graph =
      .ok ⟨⟩ (graph.modifyNode id (Node.withInputs items.length)) := by
  induction items generalizing graph with
  | nil =>
    rw [List.length_nil, Graph.modifyNode_eq_self fun node _ => node.withInputs_zero]
    rfl
  | cons head tail ih =>
    obtain ⟨node, hnode⟩ := Option.isSome_iff_exists.mp hn
    have hhead : (discard (addInputPort id)).run graph = .ok ⟨⟩ (graph.modifyNode id withInput) :=
      run_discard_eq_ok.mpr ⟨_, run_addInputPort_eq_ok.mpr ⟨node, hnode, rfl, rfl⟩⟩
    have hthere : ((graph.modifyNode id withInput).node? id).isSome = true := by
      rwa [Graph.node?_modifyNode, if_pos rfl, Option.isSome_map]
    have htail := ih hthere
    rw [Graph.modifyNode_modifyNode] at htail
    refine run_bind_eq_ok.mpr ⟨⟨⟩, _, hhead, htail.trans ?_⟩
    rw [List.length_cons, funext fun node => Node.withInputs_succ node tail.length]

/-! ### The change -/

namespace Graph

/-- The graph with the axis in a constant and further input ports for the gather, three in all. -/
def widen (graph : Graph) (id : NodeId) (node : Node) (axis : Int) : Graph :=
  (graph.holdAxis node axis).modifyNode id (Node.withInputs (3 - node.inputs.length))

/-- The graph in which the gather takes its axis from a constant. -/
def moveAxis (graph : Graph) (id : NodeId) (node : Node) (axis : Int) : Graph :=
  ((graph.widen id node axis).insertConnection (.output ⟨graph.nextNode⟩ 0) (.input id 2)).modifyNode
    id fun node => { node with
      opType := "Gather"
      attributes := node.attributes.eraseAll ["axis"] }

variable (h : graph.Coherent) (hn : graph.node? id = some node)
include h hn

/-- The constant is another node than the gather. -/
theorem Coherent.ne_nextNode : id ≠ ⟨graph.nextNode⟩ := by
  rintro rfl
  rw [h.registered.node?_next] at hn
  cases hn

variable (hfree : graph.inputConnection? id 2 = none) (axis)
include hfree

/-- The constant is said to hold the axis before anything else is done. -/
theorem Coherent.run_annotate_axis :
    (annotate (.output ⟨graph.nextNode⟩ 0) (.ofValue [axis])).run
      (graph.insertNode (axisDesc node axis)) = .ok () (graph.holdAxis node axis) := by
  obtain ⟨hawaits, hblank⟩ := h.awaitsAxis_insertNode hn hfree axis
  exact run_annotate_eq_ok.mpr ⟨rfl, hawaits.delivers, hblank, rfl⟩

/-- With three input ports the gather waits for the axis at the last one. -/
theorem Coherent.run_addInputPorts_widen :
    ((List.range (3 - node.inputs.length)).forM fun _ => discard (addInputPort id)).run
        (graph.holdAxis node axis) = .ok ⟨⟩ (graph.widen id node axis) ∧
      (graph.widen id node axis).AwaitsAxis id ⟨graph.nextNode⟩ 3 := by
  have hawaits := ensures_awaitsAxis_annotate _ _ _ (h.awaitsAxis_insertNode hn hfree axis).1
    (h.run_annotate_axis axis hn hfree)
  have hrun := run_addInputPorts hawaits.isSome_node? (List.range (3 - node.inputs.length))
  rw [List.length_range] at hrun
  have hwidened := ensures_awaitsAxis_addInputPorts _ _ _ _ hawaits hrun
  obtain ⟨gather, hgather, hcount⟩ := hwidened.receives
  rw [List.length_range] at hcount
  exact ⟨hrun, hwidened.delivers, ⟨gather, hgather, by omega⟩, hwidened.free⟩

/-- The constant may be connected. -/
theorem Coherent.checkConnect_widen : (graph.widen id node axis).checkConnect
    (.output ⟨graph.nextNode⟩ 0) (.input id 2) = .ok () :=
  (h.run_addInputPorts_widen axis hn hfree).2.checkConnect (Nat.le_refl 3)

theorem Coherent.coherent_moveAxis : (graph.moveAxis id node axis).Coherent := by
  have hheld := (h.change (.insertNode (axisDesc node axis))).change
    (.modifyNode ⟨graph.nextNode⟩ (.annotate 0 (.ofValue [axis])))
  have hwidened : (graph.widen id node axis).Coherent := hheld.change (.modifyNode id (.withInputs _))
  exact (hwidened.change (.insertConnection (h.checkConnect_widen axis hn hfree))).change
    (.modifyNode id ((Node.Neutral.setOpType "Gather").comp (.attributes (·.eraseAll ["axis"]))))

/-- The gather is fed by the constant in addition. -/
theorem Coherent.inputSource?_moveAxis (index : Nat) :
    (graph.moveAxis id node axis).inputSource? other index =
      if other = id ∧ index = 2 then some (.output ⟨graph.nextNode⟩ 0)
      else graph.inputSource? other index := by
  have hheld := (h.change (.insertNode (axisDesc node axis))).change
    (.modifyNode ⟨graph.nextNode⟩ (.annotate 0 (.ofValue [axis])))
  have hwidened : (graph.widen id node axis).Coherent := hheld.change (.modifyNode id (.withInputs _))
  have hsame : (graph.widen id node axis).inputSource? other index = graph.inputSource? other index :=
    (inputSource?_modifyNode (.withInputs _) other index).trans
      (h.inputSource?_holdAxis node axis other index)
  refine (inputSource?_modifyNode
    ((Node.Neutral.setOpType "Gather").comp (.attributes (·.eraseAll ["axis"]))) other index).trans ?_
  rw [hwidened.inputSource?_insertConnection (h.checkConnect_widen axis hn hfree), hsame]
  rfl

end Graph

/-! ### The nodes -/

/-- The gather with the axis at its third input, delivered by that connection. -/
def Node.canonicalGather (feed : ConnectionId) (node : Node) : Node :=
  { node with
    opType := "Gather"
    attributes := node.attributes.eraseAll ["axis"]
    inputs := (node.withInputs (3 - node.inputs.length)).inputs.modify 2
      ({ · with connection := some feed }) }

namespace Graph

/-- The constant for the axis of a gather. -/
def axisNode (graph : Graph) (node : Node) (axis : Int) : Node :=
  { graph.newNode (axisDesc node axis) with
    outputs := [⟨0, [⟨graph.nextConnection⟩], some (.ofValue [axis])⟩] }

/-- A connection is written to the nodes at its two ends. -/
theorem node?_insertConnection (graph : Graph) (source destination : PortRef) (other : NodeId) :
    (graph.insertConnection source destination).node? other =
      ((graph.attachSource source ⟨graph.nextConnection⟩).setFeed destination
        (some ⟨graph.nextConnection⟩)).node? other := rfl

/-- The constant is new, the gather is changed and every other node is what it was. -/
theorem Coherent.node?_moveAxis (h : graph.Coherent) (hn : graph.node? id = some node) (axis : Int)
    (other : NodeId) : (graph.moveAxis id node axis).node? other =
      if other = id then some (node.canonicalGather ⟨graph.nextConnection⟩)
      else if other = ⟨graph.nextNode⟩ then some (graph.axisNode node axis)
      else graph.node? other := by
  have hne := h.ne_nextNode hn
  rw [moveAxis, node?_modifyNode, node?_insertConnection]
  simp only [setFeed, modifyInput, attachSource, modifyOutput, widen, holdAxis, node?_modifyNode,
    node?_insertNode, PortRef.input, PortRef.output]
  by_cases hid : other = id
  · subst hid
    simp only [if_pos, if_neg hne, hn]
    rfl
  · by_cases hnew : other = ⟨graph.nextNode⟩
    · subst hnew
      simp only [if_pos, if_neg hid]
      rfl
    · simp only [if_neg hid, if_neg hnew]

/-- The constant is the last node. -/
theorem Coherent.keys_moveAxis (h : graph.Coherent) (axis : Int) :
    (graph.moveAxis id node axis).nodes.keys = graph.nodes.keys ++ [⟨graph.nextNode⟩] := by
  have hfree := (graph.nodes.contains_eq_false_iff ⟨graph.nextNode⟩).mpr h.registered.node?_next
  have hheld : (graph.widen id node axis).nodes.keys = graph.nodes.keys ++ [⟨graph.nextNode⟩] := by
    simp only [widen, holdAxis, modifyOutput, modifyNode, OrderedMap.keys_modify]
    refine (OrderedMap.keys_insert _ _ _).trans ?_
    rw [hfree]
    rfl
  simp only [moveAxis, insertConnection, setFeed, modifyInput, attachSource, modifyOutput, modifyNode,
    OrderedMap.keys_modify]
  exact hheld

/-- The connection from the constant is the last one. -/
theorem Coherent.connections_moveAxis (h : graph.Coherent) (axis : Int) :
    (graph.moveAxis id node axis).connections.toList = graph.connections.toList ++
      [(⟨graph.nextConnection⟩, ⟨.output ⟨graph.nextNode⟩ 0, .input id 2⟩)] :=
  OrderedMap.toList_insert_of_absent h.connection?_next _

/-! ### What is known -/

/-- Nothing new is known about a node that was there before. -/
theorem Coherent.outputInfo?_moveAxis (h : graph.Coherent) (hn : graph.node? id = some node)
    (axis : Int) {port : PortRef} (hport : port.node ≠ ⟨graph.nextNode⟩) :
    (graph.moveAxis id node axis).outputInfo? port = graph.outputInfo? port := by
  unfold outputInfo? outputPort?
  rw [h.node?_moveAxis hn, if_neg hport]
  by_cases hid : port.node = id
  · rw [if_pos hid, hid, hn]
    rfl
  · rw [if_neg hid]

/-- The constant says what the axis is. -/
theorem Coherent.outputInfo?_axis (h : graph.Coherent) (hn : graph.node? id = some node) (axis : Int) :
    (graph.moveAxis id node axis).outputInfo? (.output ⟨graph.nextNode⟩ 0) = some (.ofValue [axis]) := by
  change ((graph.moveAxis id node axis).outputPort? ⟨graph.nextNode⟩ 0).bind (·.info) = _
  rw [outputPort?, h.node?_moveAxis hn, if_neg (h.ne_nextNode hn).symm, if_pos rfl]
  rfl

variable (h : graph.Coherent) (hn : graph.node? id = some node) (axis)
  (hfree : graph.inputConnection? id 2 = none)
include h hn hfree

/-- All inputs but the third one know what they knew. -/
theorem Coherent.known?_moveAxis {index : Nat} (hindex : index ≠ 2) :
    (graph.moveAxis id node axis).known? id index = graph.known? id index := by
  have hfeed : (graph.moveAxis id node axis).inputSource? id index = _ :=
    h.inputSource?_moveAxis axis hn hfree index
  rw [if_neg fun hboth => hindex hboth.2] at hfeed
  exact known?_congr hfeed fun _ hsource =>
    h.outputInfo?_moveAxis hn axis (h.ne_next_of_feeds ⟨id, index, hsource⟩)

/-- All inputs but the third one receive what they received. -/
theorem Coherent.inputInfo?_moveAxis {index : Nat} (hindex : index ≠ 2) :
    (graph.moveAxis id node axis).inputInfo? id index = graph.inputInfo? id index := by
  unfold inputInfo?
  rw [h.inputSource?_moveAxis axis hn hfree, if_neg fun hboth => hindex hboth.2]
  cases hsource : graph.inputSource? id index with
  | none => rfl
  | some source =>
    exact h.outputInfo?_moveAxis hn axis (h.ne_next_of_feeds ⟨id, index, hsource⟩)

/-- The third input receives the axis. -/
theorem Coherent.inputInfo?_axis :
    (graph.moveAxis id node axis).inputInfo? id 2 = some (.ofValue [axis]) := by
  unfold inputInfo?
  rw [h.inputSource?_moveAxis axis hn hfree, if_pos ⟨rfl, rfl⟩]
  exact h.outputInfo?_axis hn axis

/-- The third input knows the axis. -/
theorem Coherent.known?_axis :
    (graph.moveAxis id node axis).known? id 2 = some (.ofValue [axis]) := by
  have hfeed : (graph.moveAxis id node axis).inputSource? id 2 = _ :=
    h.inputSource?_moveAxis axis hn hfree 2
  rw [if_pos ⟨rfl, rfl⟩] at hfeed
  exact known?_of_inputSource? hfeed (h.outputInfo?_axis hn axis) rfl

end Graph

/-! ### The rewrite -/

/-- A rewrite of a gather fails without a trace or does the whole change. -/
theorem run_canonizeGather (h : graph.Coherent) (hn : graph.node? id = some node) :
    (canonizeGather ⟨[("gather", id)]⟩).run graph =
      match gatherAxis node with
      | .error error => .error error graph
      | .ok axis =>
        match checkAxisInput id graph with
        | .error error => .error error graph
        | .ok () => .ok () (graph.moveAxis id node axis) := by
  change (check (·.requireNode id) >>= fun node => _ : Edit Unit).run graph = _
  rw [EStateM.run_bind, run_requireNode_of_some hn]
  change (Edit.ofExcept (gatherAxis node) >>= fun axis => _ : Edit Unit).run graph = _
  rw [EStateM.run_bind, run_ofExcept]
  cases gatherAxis node with
  | error error => rfl
  | ok axis =>
    change (check (checkAxisInput id) >>= fun _ => _ : Edit Unit).run graph = _
    rw [EStateM.run_bind, run_check]
    cases hfree : checkAxisInput id graph with
    | error error => rfl
    | ok _ =>
      have hslot := checkAxisInput_eq_ok_iff.mp hfree
      obtain ⟨hwiden, hawaits⟩ := h.run_addInputPorts_widen axis hn hslot
      have hthere := hawaits.isSome_node?
      refine run_bind_eq_ok.mpr ⟨_, _, run_addNode _ graph, run_bind_eq_ok.mpr
        ⟨(), _, h.run_annotate_axis axis hn hslot, run_bind_eq_ok.mpr ⟨⟨⟩, _, hwiden,
          run_bind_eq_ok.mpr ⟨⟨⟩, _, run_discard_eq_ok.mpr ⟨_, run_connect_eq_ok.mpr
            ⟨h.checkConnect_widen axis hn hslot, rfl, rfl⟩⟩, ?_⟩⟩⟩⟩
      rw [← Graph.isSome_bare?, ← Graph.bare?_insertConnection, Graph.isSome_bare?] at hthere
      refine run_bind_eq_ok.mpr ⟨(), _, run_removeAttributes_eq_ok.mpr ⟨hthere, rfl⟩,
        run_setOpType_eq_ok.mpr ⟨?_, ?_⟩⟩
      · rwa [Graph.node?_modifyNode, if_pos rfl, Option.isSome_map]
      · rw [Graph.modifyNode_modifyNode]
        rfl

/-- A rewrite of a gather succeeds if its axis can be read and its third input is free. -/
theorem exists_run_canonizeGather_iff (h : graph.Coherent) (hn : graph.node? id = some node) :
    (∃ result, (canonizeGather ⟨[("gather", id)]⟩).run graph = .ok () result) ↔
      (∃ axis, gatherAxis node = .ok axis) ∧ checkAxisInput id graph = .ok () := by
  rw [run_canonizeGather h hn]
  cases gatherAxis node with
  | error error => simp
  | ok axis => cases checkAxisInput id graph <;> simp

/-- A rewrite of a gather that fails leaves no trace. -/
theorem eq_of_run_canonizeGather_error {error : GraphError} (h : graph.Coherent)
    (hn : graph.node? id = some node)
    (hrun : (canonizeGather ⟨[("gather", id)]⟩).run graph = .error error result) : result = graph := by
  rw [run_canonizeGather h hn] at hrun
  split at hrun
  · cases hrun
    rfl
  · split at hrun
    · cases hrun
      rfl
    · cases hrun

/-- A gather that was rewritten reads its axis. -/
theorem eq_moveAxis_of_run_canonizeGather (h : graph.Coherent) (hn : graph.node? id = some node)
    (hrun : (canonizeGather ⟨[("gather", id)]⟩).run graph = .ok () result) :
    ∃ axis, gatherAxis node = .ok axis ∧ graph.inputConnection? id 2 = none ∧
      result = graph.moveAxis id node axis := by
  rw [run_canonizeGather h hn] at hrun
  split at hrun
  · cases hrun
  · rename_i axis hread
    split at hrun
    · cases hrun
    · rename_i hcheck
      cases hrun
      exact ⟨axis, hread, checkAxisInput_eq_ok_iff.mp hcheck, rfl⟩

end OpGraph
