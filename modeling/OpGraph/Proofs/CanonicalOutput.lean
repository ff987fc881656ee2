import OpGraph.Proofs.InferAfterPasses
import OpGraph.Proofs.Pass.Cleared
import OpGraph.Proofs.Stages
import OpGraph.Proofs.Validator

/-!
# Canonical output

A pipeline that runs all its stages over the standard registries delivers canonical graphs.
Inference says something about every output port and the passes keep that up. No pass leaves a
match behind, and every maximum pooling was a generic one that got the port it lacked. Validation
lets no output port pass that nothing reads.
-/

namespace OpGraph

open Edit

namespace Graph

variable {graph result : Graph} {id : NodeId}

/-- What the standard stages make of a graph. -/
structure Canonical (graph : Graph) : Prop where
  /-- No marker and no gather along an attribute is left. -/
  resolved : ∀ id node, graph.node? id = some node →
    node.opType ≠ "FakeOutput" ∧ node.opType ≠ "AttributedGather"
  /-- Generic poolings are of no method that has a type of its own. -/
  pooling : ∀ id node, graph.node? id = some node → node.opType = "Pooling" →
    node.attributes.get? "pool_method" ≠ some (.str "max") ∧
      node.attributes.get? "pool_method" ≠ some (.str "avg")
  /-- Every output port feeds an input port. -/
  consumed : ∀ id node index, graph.node? id = some node → index < node.outputs.length →
    graph.Feeds (.output id index)
  /-- The shape or the value at every output port is known. -/
  known : ∀ id node index, graph.node? id = some node → index < node.outputs.length →
    ∃ info : TensorInfo, graph.outputInfo? (.output id index) = some info ∧
      (info.shape.isSome = true ∨ info.value.isSome = true)
  /-- Maximum poolings deliver the maxima and their positions. -/
  maxima : ∀ id node, graph.node? id = some node → node.opType = "MaxPool" →
    2 ≤ node.outputs.length

/-! ### Maximum poolings -/

/-- All maximum poolings deliver the positions besides the maxima. -/
def DeliversMaxima (graph : Graph) : Prop :=
  ∀ id bare, graph.bare? id = some bare → bare.opType = "MaxPool" → 2 ≤ bare.outputs.length

/-- A rewrite of a pooling that delivers something makes it deliver the positions. -/
theorem DeliversMaxima.rewritten (h : graph.DeliversMaxima) (hsettled : graph.Settled)
    (hrewritten : graph.Rewritten id result) : result.DeliversMaxima := by
  intro other now hnow hmax
  by_cases hother : other = id
  · subst hother
    obtain ⟨bare, hbare, hpooling, hcount⟩ := hrewritten.maxima now hnow hmax
    exact hcount (hsettled.pooling other bare hbare hpooling)
  · rcases hrewritten.others other now hother hnow with (htype | htype) | ⟨bare, hbare, hsame, _⟩
    · exact absurd (htype.symm.trans hmax) (by decide)
    · exact absurd (htype.symm.trans hmax) (by decide)
    · rw [hsame] at hmax ⊢
      exact h other bare hbare hmax

end Graph

/-- Standard passes keep graphs settled and maximum poolings complete. -/
theorem Pass.Standard.ensures_deliversMaxima {pass : Pass} (hpass : pass.Standard) (verify : Bool) :
    Ensures (fun graph => graph.Settled ∧ graph.DeliversMaxima) (pass.run verify)
      fun _ graph => graph.Settled ∧ graph.DeliversMaxima := by
  refine ensures_run_pass verify fun found => ?_
  rintro graph value result ⟨⟨hsettled, hmaxima⟩, hmatches⟩ hrun
  obtain ⟨_, _, _, hrewritten⟩ := hpass.rewritten_of_run hsettled.coherent hmatches hrun
  exact ⟨hpass.ensures_settled_apply found graph value result ⟨hsettled, hmatches⟩ hrun,
    hmaxima.rewritten hsettled hrewritten⟩

/-- An imported graph has no maximum pooling yet, and inference brings none. -/
theorem SourceModel.Imported.deliversMaxima {graph known : Graph} {bound : Nat}
    (h : Imported graph) (hhidden : known.hideBelow bound = graph) : known.DeliversMaxima := by
  intro id bare hbare hmax
  obtain ⟨before, hbefore, htype⟩ := opType_of_hideBelow hhidden hbare
  have hmem := h.opType id before hbefore
  rw [htype, hmax] at hmem
  exact absurd hmem (by decide)

/-! ### Validation -/

namespace Graph

variable {graph : Graph}

/-- In a graph without errors something consumes every output port. -/
theorem feeds_of_errors_eq_nil (hgraph : graph.Coherent) (h : graph.validate.errors = [])
    {id : NodeId} {node : Node} (hn : graph.node? id = some node) {index : Nat}
    (hindex : index < node.outputs.length) : graph.Feeds (.output id index) :=
  (hgraph.errors_eq_nil_iff.mp h id node hn).2 index hindex

/-- About every output port of a settled graph something is known. -/
theorem Settled.warnings_eq_nil (h : graph.Settled) : graph.validate.warnings = [] := by
  refine List.map_eq_nil_iff.mpr (List.flatMap_eq_nil_iff.mpr fun node hnode => ?_)
  obtain ⟨id, hn⟩ := (graph.nodes.mem_values_iff node).mp hnode
  refine List.map_eq_nil_iff.mpr (List.filter_eq_nil_iff.mpr fun port hport => ?_)
  obtain ⟨index, hindex, rfl⟩ := List.mem_iff_getElem.mp hport
  have hport : graph.HasPort (.output id index) := ⟨node, hn, hindex⟩
  obtain ⟨info, hinfo, _⟩ := (h.inferred id).outputInfo? hport rfl
  rw [outputInfo?_output (bare?_of_node? hn)] at hinfo
  have hsaid : node.outputs[index].info = some info := by
    simpa [Node.bare, List.getElem?_eq_getElem hindex] using hinfo
  simp [hsaid]

/-! ### Canonical graphs -/

/-- A settled graph that the standard passes and validation let pass is canonical. -/
theorem Settled.canonical (h : graph.Settled) (hmaxima : graph.DeliversMaxima)
    (hclear : ∀ pass ∈ PassRegistry.standard, graph.Clear pass)
    (hvalid : graph.validate.errors = []) : graph.Canonical where
  resolved id node hn := by
    have hmarker := (hclear .outputMarkers (by simp [PassRegistry.standard])).accepts_eq_false
      (Pattern.isSingle_single "fake" "FakeOutput") hn
    have hgather := (hclear .gatherAxis (by simp [PassRegistry.standard])).accepts_eq_false
      (Pattern.isSingle_single "gather" "AttributedGather") hn
    simp only [NodePattern.accepts, Option.all_some, List.all_nil, Bool.and_true,
      decide_eq_false_iff_not] at hmarker hgather
    exact ⟨hmarker, hgather⟩
  pooling id node hn htype := by
    have hmax := (hclear .maxPool (by simp [PassRegistry.standard])).accepts_eq_false
      (Pattern.isSingle_constrain (Pattern.isSingle_single "pool" "Pooling")
        (.equals "pool_method" (.str "max"))) hn
    have havg := (hclear .avgPool (by simp [PassRegistry.standard])).accepts_eq_false
      (Pattern.isSingle_constrain (Pattern.isSingle_single "pool" "Pooling")
        (.equals "pool_method" (.str "avg"))) hn
    constructor <;> intro hmethod
    · simp [NodePattern.accepts, AttrPredicate.holds, htype, hmethod] at hmax
      exact absurd hmax (by decide)
    · simp [NodePattern.accepts, AttrPredicate.holds, htype, hmethod] at havg
      exact absurd havg (by decide)
  consumed id node index hn hindex := feeds_of_errors_eq_nil h.coherent hvalid hn hindex
  known id node index hn hindex := by
    have hport : graph.HasPort (.output id index) := ⟨node, hn, hindex⟩
    obtain ⟨info, hinfo, hresolved⟩ := (h.inferred id).outputInfo? hport rfl
    exact ⟨info, hinfo, by simpa [TensorInfo.isResolved] using hresolved⟩
  maxima id node hn htype := by
    simpa [Node.bare] using hmaxima id node.bare (bare?_of_node? hn) htype

end Graph

/-- A run of a pipeline over the standard registries that leaves out no stage and no pass delivers
a canonical graph, with a validation report that holds neither errors nor warnings. -/
theorem canonical_of_pipeline {pipeline : Pipeline} {schedule : List String} {model : SourceModel}
    {final : Graph} {report : PipelineReport}
    (hbuild : ({} : Pipeline).build = .ok (pipeline, schedule))
    (hrun : pipeline.run model = .ok (final, report)) :
    final.Canonical ∧ report.validation = some ⟨[], []⟩ := by
  have hpipeline := Pipeline.standard_of_build hbuild
  obtain ⟨imported, account, himport, hstages, rfl⟩ := Pipeline.exists_of_run_eq_ok hrun
  obtain ⟨infer, passes, validation, known, canonical, hfirst, hsecond, hthird, rfl⟩ :=
    Pipeline.run_canonicalize_eq_ok.mp hstages
  rw [hpipeline.config_eq] at hfirst hsecond hthird
  rw [hpipeline.extractors_eq] at himport
  rw [hpipeline.inference_eq] at hfirst
  obtain ⟨inferStats, hinfer, rfl⟩ := Pipeline.run_stage_chosen.mp hfirst
  obtain ⟨passStats, hpasses, rfl⟩ := Pipeline.run_stage_chosen.mp hsecond
  obtain ⟨validation, hvalidation, rfl⟩ := Pipeline.run_stage_chosen.mp hthird
  obtain ⟨hcheck, rfl⟩ := run_check_eq_ok.mp hvalidation
  obtain ⟨rfl, hvalid⟩ := Graph.checkCanonical_eq_ok_iff.mp hcheck
  obtain ⟨hknown, hhidden⟩ := SourceModel.settled_of_toGraph himport hinfer
  have hmaximaKnown := (SourceModel.imported_of_toGraph himport).deliversMaxima hhidden
  obtain ⟨hsettled, hmaxima⟩ := ensures_run_passes _
    (fun pass hmem => (hpipeline.passes pass hmem).ensures_deliversMaxima _) known passStats _
    ⟨hknown, hmaximaKnown⟩ hpasses
  have hregistry : PassRegistry.standard = pipeline.passes := Except.ok.inj hpipeline.disabled
  rw [← hregistry] at hpasses
  obtain ⟨_, _, hclear⟩ := PassRegistry.cleared_of_run (fun _ => PassRegistry.standard_of_mem)
    hknown.coherent PassRegistry.schedule_standard hpasses
  rw [PassRegistry.scheduled_standard] at hclear
  refine ⟨hsettled.canonical hmaxima hclear hvalid, ?_⟩
  have hreport : canonical.validate = ⟨canonical.validate.errors, canonical.validate.warnings⟩ := rfl
  rw [hvalid, hsettled.warnings_eq_nil] at hreport
  exact congrArg some hreport

/-- A model with a pooling, a gather and a requested output ends as a canonical graph. -/
theorem canonical_of_pipeline_pooledGather :
    ∃ pipeline schedule final report,
      ({} : Pipeline).build = .ok (pipeline, schedule) ∧
        pipeline.run .pooledGather = .ok (final, report) ∧
          final.Canonical ∧ report.validation = some ⟨[], []⟩ := by
  obtain ⟨pipeline, schedule, final, report, hbuild, hrun, _⟩ :=
    Pipeline.exists_run_of_any (show ((({} : Pipeline).build.bind fun built =>
      built.1.run .pooledGather).toOption.any fun _ => true) = true by decide +kernel)
  exact ⟨pipeline, schedule, final, report, hbuild, hrun, canonical_of_pipeline hbuild hrun⟩

end OpGraph
