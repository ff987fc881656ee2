import OpGraph.Proofs.Edit.Failure
import OpGraph.Proofs.Infer.Run
import OpGraph.Proofs.Reachable

/-!
# Visits that come to a halt

A visit of a node writes to one output after another and comes to a halt at the first one about which
something is known already. What was written to the outputs before it stays. All other failures of a
visit come before the first write, and the graph is what it was.
-/

namespace OpGraph

open Edit

/-- The position of the first output about which something is known. Where nothing is known, it is the
count of the outputs. -/
def Node.firstKnown (node : Node) : Nat := node.outputs.findIdx (·.info.isSome)

namespace Node

variable {node : Node} {index : Nat}

theorem firstKnown_le (node : Node) : node.firstKnown ≤ node.outputs.length :=
  List.findIdx_le_length

/-- Nothing is known about the outputs before the first known one. -/
theorem info_eq_none_of_lt_firstKnown (h : index < node.firstKnown) :
    ∃ port, node.outputs[index]? = some port ∧ port.info = none := by
  have hindex : index < node.outputs.length := Nat.lt_of_lt_of_le h node.firstKnown_le
  refine ⟨node.outputs[index], List.getElem?_eq_getElem hindex, ?_⟩
  simpa using List.not_of_lt_findIdx h

/-- Something is known about the first known output, unless there is none. -/
theorem isSome_info_firstKnown (h : node.firstKnown < node.outputs.length) :
    ∃ port, node.outputs[node.firstKnown]? = some port ∧ port.info.isSome = true :=
  ⟨_, List.getElem?_eq_getElem h,
    List.findIdx_getElem (p := fun port : OutputPort => port.info.isSome)⟩

/-- Where no output is the first known one nothing is known. -/
theorem isBlank_of_firstKnown (h : node.firstKnown = node.outputs.length) : node.IsBlank := by
  intro port hport
  obtain ⟨index, hindex, rfl⟩ := List.getElem_of_mem hport
  obtain ⟨own, hown, hnone⟩ := info_eq_none_of_lt_firstKnown (h.symm ▸ hindex)
  rw [List.getElem?_eq_getElem hindex, Option.some.injEq] at hown
  rw [hown, hnone]

end Node

/-- What is said about outputs does not show in the labels of ports. -/
theorem Graph.portLabel_inform (graph : Graph) (id : NodeId) (infos : List TensorInfo)
    (port : PortRef) : (graph.inform id infos).portLabel port = graph.portLabel port := by
  unfold Graph.portLabel Graph.inform
  rw [Graph.node?_modifyNode]
  cases graph.node? port.node with
  | none => simp
  | some node =>
    by_cases hid : port.node = id
    · simp [hid, (Node.Neutral.inform infos).name node]
    · simp [hid]

namespace Infer

variable {graph result : Graph} {id : NodeId} {node : Node} {infos outputs : List TensorInfo}
  {registry : InferRegistry} {error : GraphError}

/-- What was found out has an entry for each output. -/
theorem length_of_nodeOutputs (houtputs : nodeOutputs registry graph id node = .ok outputs) :
    outputs.length = node.outputs.length := by
  unfold nodeOutputs at houtputs
  split at houtputs
  · obtain ⟨_, _, houtputs⟩ := Except.bind_eq_ok_iff.mp houtputs
    obtain ⟨found, _, houtputs⟩ := Except.bind_eq_ok_iff.mp houtputs
    split at houtputs
    · cases houtputs
    · rename_i hlength
      cases houtputs
      exact Decidable.not_not.mp hlength
  · cases houtputs

/-- Nothing can be said for the first time about an output about which something is known. -/
theorem run_annotate_of_known {port : PortRef} (info : TensorInfo)
    (h : (graph.outputInfo? port).isSome = true) :
    (annotate port info).run graph =
      .error (.annotationAlreadySet (graph.portLabel port)) graph := by
  change ((if (graph.outputInfo? port).isSome then
    throw (.annotationAlreadySet (graph.portLabel port)) else _ : Edit Unit).run graph) = _
  rw [if_pos h]
  rfl

/-- The writing halts at the first known output, and the outputs before it are informed. -/
theorem run_annotateAll_of_known (hn : graph.node? id = some node)
    (hknown : node.firstKnown < node.outputs.length) (hlength : infos.length = node.outputs.length) :
    (infos.zipIdx.forM fun (info, index) => annotate (.output id index) info).run graph =
      .error (.annotationAlreadySet (graph.portLabel (.output id node.firstKnown)))
        (graph.inform id (infos.take node.firstKnown)) := by
  have hlt : node.firstKnown < infos.length := hlength ▸ hknown
  have hcount : (infos.take node.firstKnown).length = node.firstKnown := by
    rw [List.length_take]
    omega
  have hsplit : infos = infos.take node.firstKnown ++
      infos[node.firstKnown] :: infos.drop (node.firstKnown + 1) := by
    rw [← List.drop_eq_getElem_cons hlt, List.take_append_drop]
  have hbefore := run_annotateAll (infos.take node.firstKnown) 0 hn fun index _ hindex =>
    Node.info_eq_none_of_lt_firstKnown (by omega)
  have hinfo : ((graph.inform id (infos.take node.firstKnown)).outputInfo?
      (.output id node.firstKnown)).isSome = true := by
    obtain ⟨port, hport, hsome⟩ := Node.isSome_info_firstKnown hknown
    have hafter : (node.inform 0 (infos.take node.firstKnown)).outputs[node.firstKnown]? =
        some port := by
      rw [Node.getElem?_outputs_inform, hport, Nat.sub_zero, List.getElem?_eq_none (by omega)]
      simp
    simp [Graph.outputInfo?, Graph.outputPort?, PortRef.isOutput, PortRef.output, Graph.inform,
      Graph.node?_modifyNode, hn, hafter, hsome]
  have hhalt := run_annotate_of_known infos[node.firstKnown] hinfo
  rw [Graph.portLabel_inform] at hhalt
  conv_lhs => rw [hsplit, List.zipIdx_append, hcount, Nat.zero_add, List.zipIdx_cons,
    List.forM_eq_forM, List.forM_append]
  exact run_bind_eq_error.mpr (.inr ⟨_, _, hbefore, run_bind_eq_error.mpr (.inl hhalt)⟩)

/-- A visit that knows what to write halts at the first known output. -/
theorem run_inferNode_of_known (hn : graph.node? id = some node)
    (hmissing : isAnnotated node = false) (houtputs : nodeOutputs registry graph id node = .ok outputs)
    (hknown : node.firstKnown < node.outputs.length) :
    (inferNode registry id).run graph =
      .error (.annotationAlreadySet (graph.portLabel (.output id node.firstKnown)))
        (graph.inform id (outputs.take node.firstKnown)) := by
  unfold inferNode
  refine run_check_bind_eq_error.mpr (.inr ⟨node, graph.requireNode_eq_ok_iff.mpr hn, ?_⟩)
  rw [if_neg (by rw [hmissing]; decide)]
  refine run_check_bind_eq_error.mpr (.inr ⟨outputs, houtputs, ?_⟩)
  exact run_bind_eq_error.mpr
    (.inl (run_annotateAll_of_known hn hknown (length_of_nodeOutputs houtputs)))

/-- A visit that cannot find out what to write changes nothing. -/
theorem run_inferNode_of_error (hn : graph.node? id = some node)
    (hmissing : isAnnotated node = false)
    (houtputs : nodeOutputs registry graph id node = .error error) :
    (inferNode registry id).run graph = .error error graph := by
  unfold inferNode
  refine run_check_bind_eq_error.mpr (.inr ⟨node, graph.requireNode_eq_ok_iff.mpr hn, ?_⟩)
  rw [if_neg (by rw [hmissing]; decide)]
  exact run_check_bind_eq_error.mpr (.inl ⟨houtputs, rfl⟩)

/-- A visit of a node fails exactly if there is something to do and either it cannot be found out what
to write or something is known about an output already. -/
theorem visit_fails_iff (hn : graph.node? id = some node) :
    (∃ error result, (inferNode registry id).run graph = .error error result) ↔
      isAnnotated node = false ∧ ∀ outputs, nodeOutputs registry graph id node = .ok outputs →
        node.firstKnown < node.outputs.length := by
  constructor
  · rintro ⟨error, result, hrun⟩
    have hmissing : isAnnotated node = false := by
      refine Bool.eq_false_iff.mpr fun hannotated => ?_
      rw [run_inferNode_of_isAnnotated hn hannotated] at hrun
      cases hrun
    refine ⟨hmissing, fun outputs houtputs => ?_⟩
    by_contra hnone
    have hblank := Node.isBlank_of_firstKnown
      (Nat.le_antisymm node.firstKnown_le (Nat.not_lt.mp hnone))
    rw [run_inferNode_of_isBlank hn hblank houtputs (length_of_nodeOutputs houtputs)] at hrun
    cases hrun
  · rintro ⟨hmissing, hknown⟩
    cases houtputs : nodeOutputs registry graph id node with
    | error error => exact ⟨_, _, run_inferNode_of_error hn hmissing houtputs⟩
    | ok outputs =>
      exact ⟨_, _, run_inferNode_of_known hn hmissing houtputs (hknown outputs houtputs)⟩

/-- A graph in which an output was informed of something new is another one. -/
theorem inform_ne_of_firstKnown (hn : graph.node? id = some node) (hpositive : 0 < node.firstKnown)
    (hne : infos ≠ []) : graph.inform id infos ≠ graph := by
  intro hsame
  obtain ⟨port, hport, hnone⟩ := Node.info_eq_none_of_lt_firstKnown hpositive
  obtain ⟨info, rest, rfl⟩ := List.exists_cons_of_ne_nil hne
  have hnode := congrArg (·.node? id) hsame
  simp only [Graph.inform, Graph.node?_modifyNode, hn, if_true, Option.map_some,
    Option.some.injEq] at hnode
  have hafter := congrArg (fun node : Node => node.outputs[0]?.bind (·.info)) hnode
  simp [Node.getElem?_outputs_inform, hport, hnone] at hafter

/-- If the visit of a node fails, the graph is what it was exactly if it could not be found out what
to write or the first output is known. Whenever it was found out what to write, some output was known,
the failure names the first known one, and all outputs before it have been informed. -/
theorem unchanged_of_failed_visit_iff
    (hrun : (inferNode registry id).run graph = .error error result) :
    (result = graph ↔ ∀ node outputs, graph.node? id = some node →
        nodeOutputs registry graph id node = .ok outputs → node.firstKnown = 0) ∧
      ∀ node outputs, graph.node? id = some node → nodeOutputs registry graph id node = .ok outputs →
        node.firstKnown < node.outputs.length ∧
          error = .annotationAlreadySet (graph.portLabel (.output id node.firstKnown)) ∧
            result = graph.inform id (outputs.take node.firstKnown) := by
  have hhalt : ∀ node outputs, graph.node? id = some node →
      nodeOutputs registry graph id node = .ok outputs →
        node.firstKnown < node.outputs.length ∧
          error = .annotationAlreadySet (graph.portLabel (.output id node.firstKnown)) ∧
            result = graph.inform id (outputs.take node.firstKnown) := by
    intro node outputs hn houtputs
    obtain ⟨hmissing, hknown⟩ := (visit_fails_iff hn).mp ⟨error, result, hrun⟩
    have hknown := hknown outputs houtputs
    rw [run_inferNode_of_known hn hmissing houtputs hknown] at hrun
    cases hrun
    exact ⟨hknown, rfl, rfl⟩
  refine ⟨⟨fun hsame node outputs hn houtputs => ?_, fun hfirst => ?_⟩, hhalt⟩
  · obtain ⟨hknown, _, hresult⟩ := hhalt node outputs hn houtputs
    by_contra hpositive
    have hpositive := Nat.pos_of_ne_zero hpositive
    have hlength := length_of_nodeOutputs houtputs
    have hne : outputs.take node.firstKnown ≠ [] := by
      refine List.ne_nil_of_length_pos ?_
      rw [List.length_take]
      omega
    exact inform_ne_of_firstKnown hn hpositive hne (hresult.symm.trans hsame)
  · cases hn : graph.node? id with
    | none =>
      unfold inferNode at hrun
      rcases run_check_bind_eq_error.mp hrun with ⟨_, hresult⟩ | ⟨node, hrequire, _⟩
      · exact hresult
      · rw [graph.requireNode_eq_ok_iff, hn] at hrequire
        cases hrequire
    | some node =>
      cases houtputs : nodeOutputs registry graph id node with
      | error error =>
        have hmissing := ((visit_fails_iff hn).mp ⟨_, _, hrun⟩).1
        rw [run_inferNode_of_error hn hmissing houtputs] at hrun
        cases hrun
        rfl
      | ok outputs =>
        rw [(hhalt node outputs hn houtputs).2.2, hfirst node outputs hn houtputs, List.take_zero]
        exact Graph.modifyNode_eq_self (f := fun node => node.inform 0 []) fun _ _ => rfl

/-- A parameter with two outputs, of which the second is known. -/
def knownSecondOutput : Graph :=
  [Operation.addNode
      { opType := "Parameter", name := some "data"
        attributes := .ofList [("shape", .ints [1, 2])], outputs := 2 },
    .annotate (.output ⟨0⟩ 1) (.ofShape [7])].foldl
      (fun graph operation => operation.perform.after graph) .empty

/-- The first output is informed when the writing of the second fails. -/
theorem unchanged_of_failed_visit_iff_knownSecondOutput :
    ∃ error result, (inferNode .standard ⟨0⟩).run knownSecondOutput = .error error result ∧
      error = .annotationAlreadySet "data:out1" ∧ result ≠ knownSecondOutput ∧
        result = knownSecondOutput.inform ⟨0⟩ [.ofShape [1, 2]] := by
  obtain ⟨node, hn, hfirst⟩ : ∃ node, knownSecondOutput.node? ⟨0⟩ = some node ∧
      node.firstKnown = 1 := ⟨_, rfl, by decide +kernel⟩
  obtain ⟨error, result, hrun⟩ : ∃ error result,
      (inferNode .standard ⟨0⟩).run knownSecondOutput = .error error result := ⟨_, _, rfl⟩
  have houtputs : nodeOutputs .standard knownSecondOutput ⟨0⟩ node =
      .ok [.ofShape [1, 2], .ofShape [1, 2]] := by
    cases hn
    rfl
  obtain ⟨hsame, hhalt⟩ := unchanged_of_failed_visit_iff hrun
  obtain ⟨_, herror, hresult⟩ := hhalt node _ hn houtputs
  rw [hfirst] at herror hresult
  refine ⟨error, result, hrun, herror.trans (by decide +kernel), fun hequal => ?_, hresult⟩
  have hzero := hsame.mp hequal node _ hn houtputs
  rw [hfirst] at hzero
  exact absurd hzero (by decide)

/-- After the failure the first output is known, of which nothing was known before. -/
theorem output_informed_knownSecondOutput :
    knownSecondOutput.Reachable ∧ knownSecondOutput.outputInfo? (.output ⟨0⟩ 0) = none ∧
      ∃ error result, (inferNode .standard ⟨0⟩).run knownSecondOutput = .error error result ∧
        result ≠ knownSecondOutput ∧
          result.outputInfo? (.output ⟨0⟩ 0) = some (.ofShape [1, 2]) := by
  refine ⟨Graph.reachable_of_operations _, by decide +kernel, _, _, rfl, fun hsame => ?_,
    by decide +kernel⟩
  have hinfo := congrArg (fun graph : Graph => (graph.outputInfo? (.output ⟨0⟩ 0)).isSome) hsame
  exact absurd hinfo (by decide +kernel)

end Infer

end OpGraph
