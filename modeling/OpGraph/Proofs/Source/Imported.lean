import OpGraph.Proofs.Infer.Visited
import OpGraph.Proofs.Source.Extract

/-!
# Imported graphs before and after inference

Nothing is known about the nodes of an imported graph, and standard extractors make nodes of a few
types only. Inference settles an imported graph, and all that it adds can be hidden again.
-/

namespace OpGraph

open Edit

namespace SourceModel

variable {model : SourceModel} {extracted : List Extracted} {graph known : Graph}

/-- Types of the nodes of imported graphs. -/
def importedTypes : List String :=
  ["Parameter", "FakeOutput", "Result"] ++ Extracted.standardTypes

/-- What can be said of the nodes of a graph that standard extractors helped to import. -/
structure Imported (graph : Graph) : Prop where
  /-- The records agree. -/
  coherent : graph.Coherent
  /-- Nothing is known about the nodes. -/
  blank : ∀ id node, graph.node? id = some node → node.IsBlank
  /-- There are few types. -/
  opType : ∀ id bare, graph.bare? id = some bare → bare.opType ∈ importedTypes
  /-- Poolings deliver something. -/
  pooling : ∀ id bare, graph.bare? id = some bare → bare.opType = "Pooling" → bare.outputs ≠ []
  /-- Graph outputs deliver nothing. -/
  sink : ∀ id bare, graph.bare? id = some bare → bare.opType = "Result" → bare.outputs = []
  /-- Gathers have an axis. -/
  axis : ∀ id bare, graph.bare? id = some bare → bare.opType = "AttributedGather" →
    ∃ axis, bare.attributes.get? "axis" = some (.int axis)

/-- Nothing is known about the nodes of an imported graph. -/
theorem Fresh.isBlank (h : Fresh extracted graph) {id : NodeId} {node : Node}
    (hn : graph.node? id = some node) : node.IsBlank := by
  obtain ⟨earlier, desc, _, hbare⟩ := h id node.bare (Graph.bare?_of_node? hn)
  intro port hport
  have hmem : (⟨port.index, [], port.info⟩ : OutputPort) ∈ node.bare.outputs :=
    List.mem_map.mpr ⟨port, hport, rfl⟩
  rw [hbare] at hmem
  obtain ⟨_, _, hnew⟩ := List.mem_map.mp hmem
  exact (congrArg OutputPort.info hnew).symm

section Standard

variable (h : Fresh extracted graph) (hstandard : ∀ item ∈ extracted, item.Standard)
  {id : NodeId} {bare : Node} (hbare : graph.bare? id = some bare)
include h hstandard hbare

theorem Fresh.opType : bare.opType ∈ importedTypes := by
  obtain ⟨earlier, desc, hdesc, rfl⟩ := h id bare hbare
  change desc.opType ∈ importedTypes
  cases hdesc with
  | input opType outputs => simp [importedTypes, opType]
  | operator item mem opType attributes inputs outputs =>
    rw [opType]
    exact List.mem_append_right _ (hstandard item mem).opType
  | marker opType inputs outputs => simp [importedTypes, opType]
  | sink opType inputs outputs => simp [importedTypes, opType]

/-- Poolings of an imported graph deliver something. -/
theorem Fresh.pooling (htype : bare.opType = "Pooling") : bare.outputs ≠ [] := by
  obtain ⟨earlier, desc, hdesc, rfl⟩ := h id bare hbare
  change desc.opType = "Pooling" at htype
  have houtputs : 1 ≤ desc.outputs := by
    cases hdesc with
    | input opType outputs => exact absurd (opType.symm.trans htype) (by decide)
    | operator item mem opType attributes inputs outputs =>
      exact Nat.le_trans ((hstandard item mem).pooling (opType.symm.trans htype)) outputs
    | marker opType inputs outputs => exact absurd (opType.symm.trans htype) (by decide)
    | sink opType inputs outputs => exact absurd (opType.symm.trans htype) (by decide)
  intro hnil
  have hlength := congrArg List.length hnil
  simp only [Graph.newNode, List.length_map, List.length_range, List.length_nil] at hlength
  omega

/-- Only graph outputs behind markers have the type of graph outputs, and they deliver nothing. -/
theorem Fresh.sink (htype : bare.opType = "Result") : bare.outputs = [] := by
  obtain ⟨earlier, desc, hdesc, rfl⟩ := h id bare hbare
  change desc.opType = "Result" at htype
  cases hdesc with
  | input opType outputs => exact absurd (opType.symm.trans htype) (by decide)
  | operator item mem opType attributes inputs outputs =>
    have hmem := (hstandard item mem).opType
    rw [← opType, htype] at hmem
    exact absurd hmem (by decide)
  | marker opType inputs outputs => exact absurd (opType.symm.trans htype) (by decide)
  | sink opType inputs outputs => simp [Graph.newNode, outputs]

/-- Gathers of an imported graph have the axis that was read. -/
theorem Fresh.axis (htype : bare.opType = "AttributedGather") :
    ∃ axis, bare.attributes.get? "axis" = some (.int axis) := by
  obtain ⟨earlier, desc, hdesc, rfl⟩ := h id bare hbare
  change desc.opType = "AttributedGather" at htype
  cases hdesc with
  | input opType outputs => exact absurd (opType.symm.trans htype) (by decide)
  | operator item mem opType attributes inputs outputs =>
    obtain ⟨axis, haxis⟩ := (hstandard item mem).axis (opType.symm.trans htype)
    refine ⟨axis, ?_⟩
    change desc.attributes.get? "axis" = _
    rw [attributes, haxis]
  | marker opType inputs outputs => exact absurd (opType.symm.trans htype) (by decide)
  | sink opType inputs outputs => exact absurd (opType.symm.trans htype) (by decide)

end Standard

theorem imported_of_toGraph (himport : model.toGraph .standard = .ok graph) : Imported graph := by
  obtain ⟨extracted, names, hextracted, hlaid⟩ :=
    laid_of_toGraph himport ExtractorRegistry.leavesMarkers_standard
  have hstandard : ∀ item ∈ extracted, item.Standard := fun item hitem => by
    obtain ⟨operator, _, hread⟩ := exists_of_mem_mapM_ok hextracted hitem
    exact ExtractorRegistry.standard_of_extract hread
  exact {
    coherent := hlaid.coherent
    blank := fun _ _ hn => hlaid.fresh.isBlank hn
    opType := fun _ _ hbare => hlaid.fresh.opType hstandard hbare
    pooling := fun _ _ hbare => hlaid.fresh.pooling hstandard hbare
    sink := fun _ _ hbare => hlaid.fresh.sink hstandard hbare
    axis := fun _ _ hbare => hlaid.fresh.axis hstandard hbare }

/-- Inference settles an imported graph, and all that it adds can be hidden again. -/
theorem settled_of_toGraph {stats : InferStats} (himport : model.toGraph .standard = .ok graph)
    (hinfer : (Infer.inferGraph .standard).run graph = .ok stats known) :
    known.Settled ∧ known.hideBelow graph.nextNode = graph := by
  have himported := imported_of_toGraph himport
  obtain ⟨hsettled, hhidden⟩ :=
    himported.coherent.settled_of_run_inferGraph himported.blank himported.pooling hinfer
  refine ⟨hsettled, Eq.trans ?_ hhidden⟩
  have hnext : known.nextNode = graph.nextNode := by
    rw [← hhidden]
    rfl
  refine Graph.hide_congr fun id node hn => ?_
  have hlt : id.index < graph.nextNode := by
    rw [← hnext]
    exact hsettled.coherent.registered.lt_nextNode hn
  rw [decide_eq_true hlt]

/-- Nodes of an inferred graph have the types that they had after the import. -/
theorem opType_of_hideBelow {bound : Nat} (hhidden : known.hideBelow bound = graph) {id : NodeId}
    {bare : Node} (hbare : known.bare? id = some bare) :
    ∃ before, graph.bare? id = some before ∧ before.opType = bare.opType := by
  refine ⟨bare.forgetIf (decide (id.index < bound)), ?_, ?_⟩
  · rw [← hhidden, Graph.hideBelow, Graph.bare?_hide, hbare, Option.map_some]
  · simp only [Node.forgetIf]
    split <;> rfl

end SourceModel

end OpGraph
