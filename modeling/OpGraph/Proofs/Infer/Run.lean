import OpGraph.Proofs.Edit.Changes
import OpGraph.Proofs.Graph.Hide
import OpGraph.Proofs.Infer.Settled

/-!
# Visits of single nodes

A visit of a node finds nothing to do, or informs the outputs of the node, about which nothing may
be known. What it adds can be hidden again, and what was hidden can be added again. Nobody
but the readers of the node learns anything new.
-/

namespace OpGraph

open Edit

/-- The node when something is said about its outputs from a position on. -/
def Node.inform : Node → Nat → List TensorInfo → Node
  | node, _, [] => node
  | node, start, info :: rest =>
    inform { node with outputs := node.outputs.modify start ({ · with info := some info }) }
      (start + 1) rest

/-- Nothing is said about the outputs of the node. -/
def Node.IsBlank (node : Node) : Prop := ∀ port ∈ node.outputs, port.info = none

namespace Node

variable {node : Node} {infos : List TensorInfo}

/-- What is said about one output after another. -/
theorem getElem?_outputs_inform (node : Node) (start : Nat) (infos : List TensorInfo)
    (index : Nat) :
    (node.inform start infos).outputs[index]? = node.outputs[index]?.map fun port =>
      { port with
        info := if start ≤ index then (infos[index - start]?).or port.info else port.info } := by
  induction infos generalizing node start with
  | nil =>
    cases hport : node.outputs[index]? <;> simp [inform, hport]
  | cons info rest ih =>
    rw [inform, ih, List.getElem?_modify]
    cases hport : node.outputs[index]? with
    | none => simp
    | some port =>
      by_cases hstart : start = index
      · subst hstart
        simp [show ¬ start + 1 ≤ start by omega]
      · by_cases hle : start ≤ index
        · have hindex : index - start = (index - (start + 1)) + 1 := by omega
          simp [hstart, hle, hindex, show start + 1 ≤ index by omega]
        · simp [hstart, hle, show ¬ start + 1 ≤ index by omega]

/-- Only the outputs are informed. -/
theorem inform_eq (node : Node) (start : Nat) (infos : List TensorInfo) :
    node.inform start infos = { node with outputs := (node.inform start infos).outputs } := by
  induction infos generalizing node start with
  | nil => rfl
  | cons info rest ih =>
    rw [inform]
    exact ih _ _

@[simp] theorem length_outputs_inform (node : Node) (start : Nat) (infos : List TensorInfo) :
    (node.inform start infos).outputs.length = node.outputs.length := by
  induction infos generalizing node start with
  | nil => rfl
  | cons info rest ih => rw [inform, ih, List.length_modify]

/-- What is said shows on the bare node. -/
theorem bare_inform (node : Node) (start : Nat) (infos : List TensorInfo) :
    (node.inform start infos).bare = node.bare.inform start infos := by
  induction infos generalizing node start with
  | nil => rfl
  | cons info rest ih => rw [inform, ih, inform, bare_annotate]

/-- With one entry for each output everything that is said is what it was informed of. -/
theorem infos_inform (hlength : infos.length = node.outputs.length) :
    (node.inform 0 infos).outputs.map (·.info) = infos.map some := by
  apply List.ext_getElem?
  intro index
  rw [List.getElem?_map, List.getElem?_map, getElem?_outputs_inform]
  by_cases hindex : index < node.outputs.length
  · have hinfo : index < infos.length := by omega
    simp [List.getElem?_eq_getElem hindex, List.getElem?_eq_getElem hinfo]
  · have hinfo : infos.length ≤ index := by omega
    simp [List.getElem?_eq_none (Nat.not_lt.mp hindex), List.getElem?_eq_none hinfo]

/-- Something is said about every output of an informed node. -/
theorem exists_info_of_mem_inform (hlength : infos.length = node.outputs.length) {port : OutputPort}
    (hport : port ∈ (node.inform 0 infos).outputs) : ∃ info ∈ infos, port.info = some info := by
  have hmem := List.mem_map_of_mem (f := OutputPort.info) hport
  rw [infos_inform hlength] at hmem
  obtain ⟨info, hinfo, hsaid⟩ := List.mem_map.mp hmem
  exact ⟨info, hinfo, hsaid.symm⟩

/-- What was forgotten can be said again. -/
theorem inform_forget (hinfos : node.outputs.map (·.info) = infos.map some) :
    node.forget.inform 0 infos = node := by
  have houtputs : (node.forget.inform 0 infos).outputs = node.outputs := by
    apply List.ext_getElem?
    intro index
    rw [getElem?_outputs_inform]
    have hat := congrArg (·[index]?) hinfos
    simp only [List.getElem?_map] at hat
    cases hport : node.outputs[index]? with
    | none => simp [forget, hport]
    | some port =>
      rw [hport, Option.map_some] at hat
      obtain ⟨info, hinfo, hsame⟩ := Option.map_eq_some_iff.mp hat.symm
      simp [forget, hport, hinfo, hsame]
  rw [inform_eq, houtputs]
  rfl

theorem isBlank_forget (node : Node) : node.forget.IsBlank := fun port hport => by
  obtain ⟨_, _, rfl⟩ := List.mem_map.mp hport
  rfl

/-- Where nothing is known nothing can be forgotten. -/
theorem IsBlank.forgetIf (h : node.IsBlank) (hidden : Bool) : node.forgetIf hidden = node := by
  cases hidden with
  | false => rfl
  | true =>
    have houtputs : node.outputs.map (fun port => { port with info := none }) = node.outputs := by
      conv_rhs => rw [← node.outputs.map_id]
      apply List.map_congr_left
      intro port hport
      have hnone := h port hport
      cases port
      cases hnone
      rfl
    unfold Node.forgetIf Node.forget
    rw [if_pos rfl, houtputs]

/-- A node of which nothing is known still needs inference. -/
theorem IsBlank.isAnnotated (h : node.IsBlank) : Infer.isAnnotated node = false := by
  unfold Infer.isAnnotated
  cases houtputs : node.outputs with
  | nil => rfl
  | cons port rest =>
    have hnone := h port (by rw [houtputs]; simp)
    simp [hnone]

/-- Where something is said about every output inference has nothing to do. -/
theorem isAnnotated_of_infos (hne : node.outputs ≠ [])
    (hinfos : node.outputs.map (·.info) = infos.map some) : Infer.isAnnotated node = true := by
  unfold Infer.isAnnotated
  rw [Bool.and_eq_true, List.all_eq_true]
  refine ⟨by simpa using hne, fun port hport => ?_⟩
  have hmem := List.mem_map_of_mem (f := OutputPort.info) hport
  rw [hinfos] at hmem
  obtain ⟨info, _, hinfo⟩ := List.mem_map.mp hmem
  rw [← hinfo]
  rfl

end Node

/-- The graph in which the outputs of a node were informed of what inference found out. -/
def Graph.inform (graph : Graph) (id : NodeId) (outputs : List TensorInfo) : Graph :=
  graph.modifyNode id fun node => node.inform 0 outputs

namespace Infer

variable {graph result : Graph} {id : NodeId} {node : Node} {infos outputs : List TensorInfo}
  {registry : InferRegistry}

/-- Everything that was found out is written to outputs of which nothing was known. -/
theorem run_annotateAll (infos : List TensorInfo) (start : Nat) (hn : graph.node? id = some node)
    (hblank : ∀ index, start ≤ index → index < start + infos.length →
      ∃ port, node.outputs[index]? = some port ∧ port.info = none) :
    ((infos.zipIdx start).forM fun (info, index) => annotate (.output id index) info).run graph =
      .ok ⟨⟩ (graph.modifyNode id fun node => node.inform start infos) := by
  induction infos generalizing graph node start with
  | nil =>
    rw [Graph.modifyNode_eq_self (f := fun node => node.inform start []) fun _ _ => rfl]
    rfl
  | cons info rest ih =>
    obtain ⟨port, hport, hnone⟩ := hblank start (Nat.le_refl _) (by simp)
    have hlt := (List.getElem?_eq_some_iff.mp hport).1
    have hinfo : graph.outputInfo? (.output id start) = none := by
      simp [Graph.outputInfo?, Graph.outputPort?, PortRef.isOutput, PortRef.output, hn, hport,
        hnone]
    have hannotate : (annotate (.output id start) info).run graph =
        .ok () (graph.modifyOutput (.output id start) ({ · with info := some info })) :=
      run_annotate_eq_ok.mpr ⟨rfl, ⟨node, hn, hlt⟩, hinfo, rfl⟩
    have hnow : (graph.modifyOutput (.output id start) ({ · with info := some info })).node? id =
        some { node with outputs := node.outputs.modify start ({ · with info := some info }) } := by
      rw [Graph.modifyOutput, Graph.node?_modifyNode, hn]
      exact if_pos rfl
    rw [List.zipIdx_cons]
    refine run_bind_eq_ok.mpr ⟨_, _, hannotate, ?_⟩
    have hrest := ih (start + 1) hnow fun index hle hlt => by
      obtain ⟨own, hown, hnone⟩ := hblank index (by omega) (by rw [List.length_cons]; omega)
      exact ⟨own, by simp [hown, show start ≠ index by omega], hnone⟩
    have hboth : (graph.modifyOutput (.output id start)
        ({ · with info := some info })).modifyNode id
          (fun node => node.inform (start + 1) rest) =
          graph.modifyNode id fun node => node.inform start (info :: rest) :=
      graph.modifyNode_modifyNode id _ _
    rw [hboth] at hrest
    exact hrest

/-- A visit with nothing to do ends before it looks for what to write. -/
theorem run_inferNode_of_isAnnotated (hn : graph.node? id = some node)
    (hannotated : isAnnotated node = true) :
    (inferNode registry id).run graph = .ok false graph := by
  unfold inferNode
  refine run_check_bind_eq_ok.mpr ⟨node, graph.requireNode_eq_ok_iff.mpr hn, ?_⟩
  rw [if_pos hannotated]
  rfl

/-- A node of which nothing is known is informed of what inference finds out. -/
theorem run_inferNode_of_isBlank (hn : graph.node? id = some node) (hblank : node.IsBlank)
    (houtputs : nodeOutputs registry graph id node = .ok outputs)
    (hlength : outputs.length = node.outputs.length) :
    (inferNode registry id).run graph =
      .ok true (graph.inform id outputs) := by
  have hannotate := run_annotateAll outputs 0 hn fun index _ hlt => by
    have hport : index < node.outputs.length := by omega
    exact ⟨_, List.getElem?_eq_getElem hport, hblank _ (List.getElem_mem hport)⟩
  unfold inferNode
  refine run_check_bind_eq_ok.mpr ⟨node, graph.requireNode_eq_ok_iff.mpr hn, ?_⟩
  rw [if_neg (by rw [hblank.isAnnotated]; decide)]
  refine run_check_bind_eq_ok.mpr ⟨outputs, houtputs, ?_⟩
  exact run_bind_eq_ok.mpr ⟨_, _, hannotate, rfl⟩

/-- What is written to one output after another can only be written where nothing was known. -/
theorem blank_of_run_annotateAll {value : PUnit} (infos : List TensorInfo) (start : Nat)
    (hn : graph.node? id = some node)
    (hrun : ((infos.zipIdx start).forM
      fun (info, index) => annotate (.output id index) info).run graph = .ok value result)
    (index : Nat) (hle : start ≤ index) (hlt : index < start + infos.length) :
    ∃ port, node.outputs[index]? = some port ∧ port.info = none := by
  induction infos generalizing graph node start with
  | nil => exact absurd hlt (by simpa using hle)
  | cons info rest ih =>
    rw [List.zipIdx_cons] at hrun
    obtain ⟨_, middle, hannotate, hrest⟩ := run_bind_eq_ok.mp hrun
    obtain ⟨_, ⟨own, hown, hport⟩, hinfo, rfl⟩ := run_annotate_eq_ok.mp hannotate
    rw [PortRef.output, hn, Option.some.injEq] at hown
    subst hown
    by_cases hindex : index = start
    · subst hindex
      have hnone : ∀ port, node.outputs[index]? = some port → port.info = none := by
        simpa [Graph.outputInfo?, Graph.outputPort?, PortRef.isOutput, PortRef.output, hn] using
          hinfo
      exact ⟨_, List.getElem?_eq_getElem hport, hnone _ (List.getElem?_eq_getElem hport)⟩
    · have hnow : (graph.modifyOutput (.output id start) ({ · with info := some info })).node? id =
          some { node with
            outputs := node.outputs.modify start ({ · with info := some info }) } := by
        rw [Graph.modifyOutput, Graph.node?_modifyNode, hn]
        exact if_pos rfl
      rw [List.length_cons] at hlt
      have hlater := ih (start + 1) hnow hrest (by omega) (by omega)
      simpa [show start ≠ index by omega] using hlater

/-- A visit succeeds in two ways: there was nothing to do, or nothing was known about the outputs
and they are informed of what the function of the node finds out. -/
theorem run_inferNode_eq_ok_iff (h : graph.Coherent) (hn : graph.node? id = some node)
    {inferred : Bool} :
    (inferNode registry id).run graph = .ok inferred result ↔
      (isAnnotated node = true ∧ inferred = false ∧ result = graph) ∨
        (isAnnotated node = false ∧ node.IsBlank ∧ inferred = true ∧ ∃ inputs outputs,
          graph.Receives id node.inputs.length inputs ∧ node.ComputedBy registry inputs outputs ∧
            result = graph.inform id outputs) := by
  constructor
  · intro hrun
    have hunfolded := hrun
    unfold inferNode at hunfolded
    obtain ⟨own, hown, hrest⟩ := run_check_bind_eq_ok.mp hunfolded
    rw [Graph.requireNode_eq_ok_iff, hn, Option.some.injEq] at hown
    subst hown
    split at hrest
    · rename_i hannotated
      cases hrest
      exact .inl ⟨hannotated, rfl, rfl⟩
    · rename_i hannotated
      obtain ⟨outputs, houtputs, hrest⟩ := run_check_bind_eq_ok.mp hrest
      obtain ⟨inputs, hreceives, hcomputed⟩ := (h.nodeOutputs_eq_ok_iff_computedBy hn).mp houtputs
      obtain ⟨_, _, hannotate, _⟩ := run_bind_eq_ok.mp hrest
      have hlength := hcomputed.length_eq
      have hblank : node.IsBlank := fun port hport => by
        obtain ⟨index, hindex, rfl⟩ := List.getElem_of_mem hport
        obtain ⟨own, hown, hnone⟩ := blank_of_run_annotateAll outputs 0 hn hannotate index
          (Nat.zero_le _) (by omega)
        rw [List.getElem?_eq_getElem hindex, Option.some.injEq] at hown
        rw [hown, hnone]
      have hinformed := run_inferNode_of_isBlank hn hblank houtputs hlength
      rw [hrun] at hinformed
      cases hinformed
      exact .inr ⟨by simpa using hannotated, hblank, rfl, inputs, outputs, hreceives, hcomputed,
        rfl⟩
  · intro hvisit
    rcases hvisit with ⟨hannotated, hinferred, hresult⟩ |
      ⟨_, hblank, hinferred, inputs, outputs, hreceives, hcomputed, hresult⟩
    · rw [hinferred, hresult]
      exact run_inferNode_of_isAnnotated hn hannotated
    · rw [hinferred, hresult]
      have houtputs := (h.nodeOutputs_eq_ok_iff_computedBy hn).mpr ⟨inputs, hreceives, hcomputed⟩
      exact run_inferNode_of_isBlank hn hblank houtputs hcomputed.length_eq

end Infer

/-- What is said about outputs shows nowhere else in the graph. -/
theorem Node.Neutral.inform (infos : List TensorInfo) :
    Node.Neutral fun node => node.inform 0 infos where
  name node := by rw [Node.inform_eq]
  feed node index := by
    unfold Node.feed?
    rw [Node.inform_eq]
  listed node index := by
    unfold Node.listed
    rw [Node.getElem?_outputs_inform]
    cases node.outputs[index]? <;> rfl
  indexed node h := by
    refine ⟨fun index port hport => h.1 index port ?_, fun index port hport => ?_⟩
    · rw [Node.inform_eq] at hport
      exact hport
    · rw [Node.getElem?_outputs_inform] at hport
      obtain ⟨old, hold, rfl⟩ := Option.map_eq_some_iff.mp hport
      exact h.2 index old hold

theorem Node.forget_inform (node : Node) (infos : List TensorInfo) :
    (node.inform 0 infos).forget = node.forget := by
  have houtputs : (node.inform 0 infos).outputs.map (fun port => { port with info := none }) =
      node.outputs.map fun port => { port with info := none } := by
    apply List.ext_getElem?
    intro index
    rw [List.getElem?_map, List.getElem?_map, Node.getElem?_outputs_inform]
    cases node.outputs[index]? <;> rfl
  unfold Node.forget
  rw [houtputs, Node.inform_eq]

namespace Graph

variable {graph : Graph} {id : NodeId} {node : Node} {outputs : List TensorInfo}
  {hidden : NodeId → Bool}

/-- Hiding depends on what is hidden among the nodes that exist. -/
theorem hide_congr {other : NodeId → Bool}
    (h : ∀ id node, graph.node? id = some node →
      node.forgetIf (hidden id) = node.forgetIf (other id)) :
    graph.hide hidden = graph.hide other := by
  refine eq_of_records (OrderedMap.ext ?_) rfl rfl rfl rfl
  apply List.map_congr_left
  intro entry hentry
  dsimp only
  rw [h entry.1 entry.2 ((graph.nodes.get?_eq_some_iff entry.1 entry.2).mpr hentry)]

/-- Hiding nothing, or nothing that is known, changes nothing. -/
theorem hide_eq_self
    (h : ∀ id node, graph.node? id = some node → node.forgetIf (hidden id) = node) :
    graph.hide hidden = graph := by
  have hnodes := OrderedMap.mapValues_eq_self (m := graph.nodes)
    (f := fun id => Node.forgetIf (hidden id)) fun entry hentry =>
      h entry.1 entry.2 ((graph.nodes.get?_eq_some_iff entry.1 entry.2).mpr hentry)
  exact eq_of_records hnodes rfl rfl rfl rfl

/-- Hidden graphs are coherent. -/
theorem Coherent.hide (h : graph.Coherent) (hidden : NodeId → Bool) :
    (graph.hide hidden).Coherent := by
  have hlisted : ∀ id index, (graph.hide hidden).listed id index = graph.listed id index := by
    intro id index
    unfold listed
    rw [node?_hide]
    cases graph.node? id with
    | none => rfl
    | some node =>
      cases hidden id with
      | false => rfl
      | true =>
        simp only [Option.map_some, Option.getD_some, Node.listed, Node.forgetIf, Node.forget,
          if_true, List.getElem?_map, Option.map_map]
        rfl
  have hname : ∀ id, (graph.hide hidden).nameOf? id = graph.nameOf? id := by
    intro id
    unfold nameOf?
    rw [node?_hide]
    cases graph.node? id <;> simp
  refine ⟨h.linked.congr (fun _ => rfl) hlisted (fun _ _ => inputConnection?_hide _ _),
    ⟨?_, ?_, ?_⟩,
    h.counted⟩
  · intro name id
    rw [hname]
    exact h.registered.named name id
  · intro id node hn
    rw [node?_hide] at hn
    obtain ⟨old, hold, rfl⟩ := Option.map_eq_some_iff.mp hn
    have hindexed := h.registered.indexed id old hold
    cases hidden id with
    | false => exact hindexed
    | true =>
      refine ⟨hindexed.1, fun index port hport => ?_⟩
      simp only [Node.forgetIf, if_true, Node.forget, List.getElem?_map] at hport
      obtain ⟨own, hown, rfl⟩ := Option.map_eq_some_iff.mp hport
      exact hindexed.2 index own hown
  · unfold OrderedMap.Counted
    have hkeys : (graph.hide hidden).nodes.keys = graph.nodes.keys := OrderedMap.keys_mapValues _ _
    rw [hkeys]
    exact h.registered.counted

/-! ### What is added and taken away -/

theorem inputSource?_inform (graph : Graph) (id : NodeId) (outputs : List TensorInfo)
    (other : NodeId) (index : Nat) : (graph.inform id outputs).inputSource? other index =
      graph.inputSource? other index :=
  inputSource?_modifyNode (.inform outputs) other index

theorem bare?_inform (graph : Graph) (id : NodeId) (outputs : List TensorInfo) (other : NodeId) :
    (graph.inform id outputs).bare? other =
      if other = id then (graph.bare? other).map fun node => node.inform 0 outputs
      else graph.bare? other :=
  bare?_modifyNode (g := fun node => node.inform 0 outputs)
    (fun node => node.bare_inform 0 outputs) id other

/-- Whoever does not read the node learns nothing when it is informed. -/
theorem known?_inform {other : NodeId} (hother : ¬ graph.Reads other id) (index : Nat) :
    (graph.inform id outputs).known? other index = graph.known? other index := by
  refine known?_congr (graph.inputSource?_inform id outputs other index) fun source hsource => ?_
  have hne : source.node ≠ id := fun heq => hother ⟨index, source, hsource, heq⟩
  rw [outputInfo?_eq_bare?, outputInfo?_eq_bare?, bare?_inform, if_neg hne]

/-- A node that says what inference finds out from what is known at its inputs is settled. -/
theorem settledAt_of_inform {inputs : List TensorInfo}
    (hn : graph.node? id = some (node.inform 0 outputs))
    (hreceives : graph.Receives id node.inputs.length inputs)
    (hinfers : node.Infers inputs outputs) :
    graph.SettledAt id := by
  intro bare hbare
  rw [bare?, hn, Option.map_some, Node.bare_inform, Option.some.injEq] at hbare
  subst hbare
  have hsame := node.bare.inform_eq 0 outputs
  have htype : (node.bare.inform 0 outputs).opType = node.opType := by
    rw [hsame]
    rfl
  have hattributes : (node.bare.inform 0 outputs).attributes = node.attributes := by
    rw [hsame]
    rfl
  have hinputs : (node.bare.inform 0 outputs).inputs.length = node.inputs.length := by
    rw [hsame]
    simp [Node.bare]
  have houtputs : (node.bare.inform 0 outputs).outputs.length = node.outputs.length := by
    rw [Node.length_outputs_inform]
    simp [Node.bare]
  refine ⟨inputs, outputs, by rwa [hinputs], hinfers.congr (by rw [htype]) hattributes houtputs, ?_⟩
  exact Node.infos_inform (by simpa [Node.bare] using hinfers.length_eq)

/-- What a node was informed of can be hidden again. -/
theorem hide_inform (graph : Graph) (outputs : List TensorInfo) (hid : hidden id = true) :
    (graph.inform id outputs).hide hidden = graph.hide hidden := by
  have hchanged : (graph.inform id outputs).hide hidden =
      (graph.hide hidden).modifyNode id fun node => node :=
    hide_modifyNode_of fun node => by
      rw [hid]
      exact node.forget_inform outputs
  rw [hchanged]
  exact modifyNode_eq_self fun _ _ => rfl

/-- A hidden node that is informed of what is known about it is hidden no more. -/
theorem inform_hide (hn : graph.node? id = some node) (hid : hidden id = true)
    (hinfo : node.outputs.map (·.info) = outputs.map some) :
    (graph.hide hidden).inform id outputs =
      graph.hide fun other => hidden other && decide (other ≠ id) := by
  refine eq_of_records (OrderedMap.ext ?_) rfl rfl rfl rfl
  simp only [Graph.inform, modifyNode, hide, OrderedMap.modify, OrderedMap.mapValues, List.map_map]
  apply List.map_congr_left
  intro entry hentry
  have hvalue : graph.node? entry.1 = some entry.2 :=
    (graph.nodes.get?_eq_some_iff entry.1 entry.2).mpr hentry
  by_cases hkey : entry.1 = id
  · have hown : entry.2 = node := by
      rw [hkey, hn] at hvalue
      exact (Option.some.inj hvalue).symm
    simp only [Function.comp, hkey, hid, hown, if_true, Node.forgetIf]
    simp [node.inform_forget hinfo]
  · simp [hkey]

end Graph

end OpGraph
