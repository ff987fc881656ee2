import OpGraph.Proofs.InferAfterPasses
import OpGraph.Proofs.Pass.Cleared
import OpGraph.Proofs.Stages

/-!
# Canonizing a graph again

What a pipeline over the standard registries delivers the same pipeline leaves alone. Inference
leaves a settled graph behind, passes keep it settled, and inference of a settled graph adds
nothing. No pass that ran finds a match, since none is left behind and none comes back.
-/

namespace OpGraph

open Edit

namespace Pipeline

variable {α : Type} {edit : Edit α} {chosen : Bool} {graph known canonical result : Graph}
  {config : PipelineConfig} {pipeline : Pipeline} {schedule : List String}
  {infer : Option InferStats} {passes : Option PassStats} {validation : Option ValidationReport}

/-- A stage that changes nothing where it is chosen changes nothing. -/
theorem exists_run_stage {P : α → Prop}
    (h : chosen = true → ∃ own, edit.run graph = .ok own graph ∧ P own) :
    ∃ value, (stage chosen edit).run graph = .ok value graph ∧ value.isSome = chosen ∧
      ∀ own, value = some own → P own := by
  cases chosen with
  | true =>
    obtain ⟨own, hown, hP⟩ := h rfl
    refine ⟨some own, run_stage_chosen.mpr ⟨own, hown, rfl⟩, rfl, fun other hother => ?_⟩
    cases hother
    exact hP
  | false => exact ⟨none, run_stage_skipped.mpr ⟨rfl, rfl⟩, rfl, fun _ hnone => (by cases hnone)⟩

/-- The chosen stages of the pipeline have nothing left to do. -/
structure Done (pipeline : Pipeline) (schedule : List String) (graph : Graph) : Prop where
  /-- Inference leaves nothing to infer. -/
  inferred : pipeline.config.infer = true → graph.Settled
  /-- Passes leave no match. -/
  cleared : pipeline.config.runPasses = true →
    ∀ pass ∈ schedule.filterMap pipeline.passes.get?, graph.Clear pass

namespace Standard

variable (h : pipeline.Standard config schedule)
include h

/-- Passes keep a graph settled and leave no match, if they are chosen at all. -/
theorem done_of_passes (hcoherent : known.Coherent)
    (hsettled : pipeline.config.infer = true → known.Settled)
    (hrun : (stage pipeline.config.runPasses
      (pipeline.passes.run pipeline.config.verifyPostconditions)).run known =
        .ok passes canonical) : pipeline.Done schedule canonical := by
  cases hchosen : pipeline.config.runPasses with
  | true =>
    rw [hchosen] at hrun
    obtain ⟨stats, hpasses, _⟩ := run_stage_chosen.mp hrun
    obtain ⟨_, _, hclear⟩ := PassRegistry.cleared_of_run h.passes hcoherent h.ordered hpasses
    refine ⟨fun hinfer => ?_, fun _ => hclear⟩
    exact ensures_run_passes _ (fun pass hmem => (h.passes pass hmem).ensures_settled _)
      known stats canonical (hsettled hinfer) hpasses
  | false =>
    rw [hchosen] at hrun
    obtain ⟨_, rfl⟩ := run_stage_skipped.mp hrun
    exact ⟨hsettled, fun htrue => absurd (hchosen.symm.trans htrue) (by decide)⟩

/-- Where nothing is left to do the stages before validation change nothing and apply no pass. -/
theorem exists_run_of_done (hdone : pipeline.Done schedule graph) :
    ∃ infer passes,
      (stage pipeline.config.infer (Infer.inferGraph pipeline.inference)).run graph =
        .ok infer graph ∧
      (stage pipeline.config.runPasses
        (pipeline.passes.run pipeline.config.verifyPostconditions)).run graph =
          .ok passes graph ∧
      passes.isSome = pipeline.config.runPasses ∧
        ∀ stats, passes = some stats → stats.found = 0 ∧ stats.applied = 0 := by
  have hinferred : pipeline.config.infer = true →
      ∃ own, (Infer.inferGraph pipeline.inference).run graph = .ok own graph ∧ True := fun hchosen => by
    obtain ⟨stats, hrun⟩ := (hdone.inferred hchosen).run_inferGraph fun _ => false
    rw [Graph.hide_eq_self fun _ _ _ => rfl] at hrun
    exact ⟨stats, h.inference_eq ▸ hrun, trivial⟩
  have hcleared : pipeline.config.runPasses = true →
      ∃ own, (pipeline.passes.run pipeline.config.verifyPostconditions).run graph = .ok own graph ∧
        (own.found = 0 ∧ own.applied = 0) := fun hchosen =>
    ⟨_, PassRegistry.run_of_clear h.ordered (hdone.cleared hchosen) _, rfl, rfl⟩
  obtain ⟨infer, hinfer, _⟩ := exists_run_stage hinferred
  obtain ⟨passes, hpasses, hsome, hcounts⟩ := exists_run_stage hcleared
  exact ⟨infer, passes, hinfer, hpasses, hsome, hcounts⟩

end Standard

end Pipeline

/-- What a pipeline over the standard registries delivers, whatever stages and passes it leaves
out, its stages leave exactly as it is. The passes, if they run, find no match and apply to none,
and the validation says the same as before. -/
theorem canonicalize_again {config : PipelineConfig} {pipeline : Pipeline} {schedule : List String}
    {model : SourceModel} {final : Graph} {report : PipelineReport}
    (hbuild : ({ config } : Pipeline).build = .ok (pipeline, schedule))
    (hrun : pipeline.run model = .ok (final, report)) :
    ∃ again, pipeline.canonicalize.run final = .ok again final ∧
      again.passes.isSome = config.runPasses ∧
      (∀ stats, again.passes = some stats → stats.found = 0 ∧ stats.applied = 0) ∧
      again.validation = report.validation := by
  have hpipeline := Pipeline.standard_of_build hbuild
  obtain ⟨imported, account, himport, hstages, rfl⟩ := Pipeline.exists_of_run_eq_ok hrun
  obtain ⟨infer, passes, validation, known, canonical, hinfer, hpasses, hvalidation, rfl⟩ :=
    Pipeline.run_canonicalize_eq_ok.mp hstages
  rw [hpipeline.extractors_eq] at himport
  obtain ⟨hcoherent, hsettled, _⟩ := hpipeline.settled_of_infer himport hinfer
  have hdone := hpipeline.done_of_passes hcoherent hsettled hpasses
  obtain ⟨inferAgain, passesAgain, hinferAgain, hpassesAgain, hsome, hcounts⟩ :=
    hpipeline.exists_run_of_done hdone
  -- Validation reads the graph and does not change it.
  have hsame : canonical = final := by
    cases hchosen : pipeline.config.validateOutput with
    | true =>
      rw [hchosen] at hvalidation
      obtain ⟨_, hcheck, _⟩ := Pipeline.run_stage_chosen.mp hvalidation
      exact (run_check_eq_ok.mp hcheck).2
    | false =>
      rw [hchosen] at hvalidation
      exact (Pipeline.run_stage_skipped.mp hvalidation).2.symm
  subst hsame
  refine ⟨⟨0, inferAgain, passesAgain, validation⟩, Pipeline.run_canonicalize_eq_ok.mpr
    ⟨_, _, _, _, _, hinferAgain, hpassesAgain, hvalidation, rfl⟩, ?_, hcounts, rfl⟩
  rw [← hpipeline.config_eq]
  exact hsome

/-- Without the pass for gathers two passes apply here, and none of those that run applies again. -/
theorem canonicalize_again_pooledGather :
    ∃ pipeline schedule final report again,
      ({ config := { disabledPasses := ["GatherNormalizer"] } } : Pipeline).build =
          .ok (pipeline, schedule) ∧
        pipeline.run .pooledGather = .ok (final, report) ∧
        report.passes.map (·.applied) = some 2 ∧
        pipeline.canonicalize.run final = .ok again final ∧
        again.passes.isSome = true ∧
        (∀ stats, again.passes = some stats → stats.found = 0 ∧ stats.applied = 0) ∧
        again.validation = report.validation := by
  obtain ⟨pipeline, schedule, final, report, hbuild, hrun, happlied⟩ :=
    Pipeline.exists_run_of_any
      (show ((({ config := { disabledPasses := ["GatherNormalizer"] } } : Pipeline).build.bind
        fun built => built.1.run .pooledGather).toOption.any
          fun outcome => decide (outcome.2.passes.map (·.applied) = some 2)) = true by decide +kernel)
  obtain ⟨again, hagain, hsome, hcounts, hvalidation⟩ := canonicalize_again hbuild hrun
  exact ⟨pipeline, schedule, final, report, again, hbuild, hrun, of_decide_eq_true happlied, hagain,
    hsome, hcounts, hvalidation⟩

end OpGraph
