import OpGraph.Proofs.Edit.Failure
import OpGraph.Proofs.Pass.Run
import OpGraph.Proofs.Source.Imported

/-!
# The stages of a pipeline

A run of a pipeline is an import, an inference, a run of passes and a validation, of which all but
the first may be left out. Building a pipeline over the standard registries only switches passes
off, and their order is known before the first run.
-/

namespace OpGraph

open Edit

namespace Pipeline

variable {α : Type} {edit : Edit α} {chosen : Bool} {graph result : Graph} {error : GraphError}
  {pipeline built : Pipeline} {schedule : List String} {model : SourceModel}
  {report : PipelineReport}

/-- A chosen stage runs. -/
theorem run_stage_chosen {value : Option α} :
    (stage true edit).run graph = .ok value result ↔
      ∃ own, edit.run graph = .ok own result ∧ value = some own := by
  constructor
  · intro hrun
    obtain ⟨own, _, hown, hpure⟩ := run_bind_eq_ok.mp hrun
    cases hpure
    exact ⟨own, hown, rfl⟩
  · rintro ⟨own, hown, rfl⟩
    exact run_bind_eq_ok.mpr ⟨own, result, hown, rfl⟩

/-- A stage that is left out does nothing. -/
theorem run_stage_skipped {value : Option α} :
    (stage false edit).run graph = .ok value result ↔ value = none ∧ result = graph := by
  constructor
  · intro hrun
    cases hrun
    exact ⟨rfl, rfl⟩
  · rintro ⟨rfl, rfl⟩
    rfl

theorem failsOnly_stage {P : Graph → Prop} {E : GraphError → Prop}
    (h : chosen = true → FailsOnly P edit E) : FailsOnly P (stage chosen edit) E := by
  cases chosen with
  | true => exact failsOnly_bind (h rfl) (fun _ _ _ _ _ => trivial) fun _ => failsOnly_pure _
  | false => exact failsOnly_pure none

/-- Chosen stages run one after another. -/
theorem run_canonicalize_eq_ok :
    pipeline.canonicalize.run graph = .ok report result ↔
      ∃ infer passes validation known canonical,
        (stage pipeline.config.infer (Infer.inferGraph pipeline.inference)).run graph =
          .ok infer known ∧
        (stage pipeline.config.runPasses
          (pipeline.passes.run pipeline.config.verifyPostconditions)).run known =
          .ok passes canonical ∧
        (stage pipeline.config.validateOutput (Edit.check (·.checkCanonical))).run canonical =
          .ok validation result ∧
        report = ⟨0, infer, passes, validation⟩ := by
  constructor
  · intro hrun
    obtain ⟨infer, known, hinfer, hrun⟩ := run_bind_eq_ok.mp hrun
    obtain ⟨passes, canonical, hpasses, hrun⟩ := run_bind_eq_ok.mp hrun
    obtain ⟨validation, _, hvalidation, hrun⟩ := run_bind_eq_ok.mp hrun
    cases hrun
    exact ⟨infer, passes, validation, known, canonical, hinfer, hpasses, hvalidation, rfl⟩
  · rintro ⟨infer, passes, validation, known, canonical, hinfer, hpasses, hvalidation, rfl⟩
    exact run_bind_eq_ok.mpr ⟨infer, known, hinfer, run_bind_eq_ok.mpr
      ⟨passes, canonical, hpasses, run_bind_eq_ok.mpr ⟨validation, result, hvalidation, rfl⟩⟩⟩

/-- A run succeeds only if the import and the stages do. -/
theorem exists_of_run_eq_ok (hrun : pipeline.run model = .ok (result, report)) :
    ∃ imported account, model.toGraph pipeline.extractors = .ok imported ∧
      pipeline.canonicalize.run imported = .ok account result ∧
      report = { account with imported := model.operators.length } := by
  obtain ⟨imported, himport, hstages⟩ := Except.bind_eq_ok_iff.mp hrun
  cases hcanonicalize : pipeline.canonicalize.run imported with
  | ok account left =>
    rw [hcanonicalize] at hstages
    cases hstages
    exact ⟨imported, account, himport, hcanonicalize, rfl⟩
  | error error left =>
    rw [hcanonicalize] at hstages
    cases hstages

/-- A run over a model that can be imported fails only if a stage does. -/
theorem exists_of_run_eq_error {imported : Graph}
    (himport : model.toGraph pipeline.extractors = .ok imported)
    (hrun : pipeline.run model = .error error) :
    ∃ left, pipeline.canonicalize.run imported = .error error left := by
  simp only [run, himport, bind, Except.bind] at hrun
  cases hcanonicalize : pipeline.canonicalize.run imported with
  | ok account left =>
    rw [hcanonicalize] at hrun
    cases hrun
  | error own left =>
    rw [hcanonicalize] at hrun
    cases hrun
    exact ⟨left, rfl⟩

/-- An evaluation shows that a pipeline can be built, that it runs through and what it delivers. -/
theorem exists_run_of_any {config : PipelineConfig} {test : Graph × PipelineReport → Bool}
    (h : ((({ config } : Pipeline).build.bind fun built => built.1.run model).toOption.any test) = true) :
    ∃ pipeline schedule final report, ({ config } : Pipeline).build = .ok (pipeline, schedule) ∧
      pipeline.run model = .ok (final, report) ∧ test (final, report) = true := by
  cases hbuild : ({ config } : Pipeline).build with
  | error error =>
    rw [hbuild] at h
    cases h
  | ok own =>
    obtain ⟨pipeline, schedule⟩ := own
    rw [hbuild] at h
    change (pipeline.run model).toOption.any test = true at h
    cases hrun : pipeline.run model with
    | error error =>
      rw [hrun] at h
      cases h
    | ok outcome =>
      rw [hrun] at h
      exact ⟨pipeline, schedule, outcome.1, outcome.2, rfl, hrun, h⟩

/-- What is built from the standard registries is a pipeline over standard passes that can be
ordered. -/
structure Standard (config : PipelineConfig) (schedule : List String) (pipeline : Pipeline) :
    Prop where
  /-- The choice of the stages stays. -/
  config_eq : pipeline.config = config
  /-- The extractors stay. -/
  extractors_eq : pipeline.extractors = .standard
  /-- The inference functions stay. -/
  inference_eq : pipeline.inference = .standard
  /-- Passes are switched off at most. -/
  disabled : PassRegistry.standard.disableAll config.disabledPasses = .ok pipeline.passes
  /-- The order of the passes is known. -/
  ordered : pipeline.passes.schedule = .ok schedule

theorem standard_of_build {config : PipelineConfig}
    (h : ({ config } : Pipeline).build = .ok (pipeline, schedule)) :
    pipeline.Standard config schedule := by
  obtain ⟨passes, hpasses, hrest⟩ := Except.bind_eq_ok_iff.mp h
  obtain ⟨order, horder, hpair⟩ := Except.bind_eq_ok_iff.mp hrest
  cases hpair
  exact ⟨rfl, rfl, rfl, hpasses, horder⟩

theorem Standard.passes {config : PipelineConfig} (h : pipeline.Standard config schedule) :
    ∀ pass ∈ pipeline.passes, pass.Standard :=
  PassRegistry.standard_of_disableAll (fun _ => PassRegistry.standard_of_mem) h.disabled

/-- Inference of an imported graph settles it, if it is chosen at all, and all that the stage adds
can be hidden again. -/
theorem Standard.settled_of_infer {config : PipelineConfig} {known : Graph} {infer : Option InferStats}
    (h : pipeline.Standard config schedule) (himport : model.toGraph .standard = .ok graph)
    (hrun : (stage pipeline.config.infer (Infer.inferGraph pipeline.inference)).run graph =
      .ok infer known) :
    known.Coherent ∧ (pipeline.config.infer = true → known.Settled) ∧
      ∃ hidden, known.hide hidden = graph := by
  rw [h.inference_eq] at hrun
  cases hchosen : pipeline.config.infer with
  | true =>
    rw [hchosen] at hrun
    obtain ⟨stats, hinfer, _⟩ := run_stage_chosen.mp hrun
    obtain ⟨hsettled, hhidden⟩ := SourceModel.settled_of_toGraph himport hinfer
    exact ⟨hsettled.coherent, fun _ => hsettled, _, hhidden⟩
  | false =>
    rw [hchosen] at hrun
    obtain ⟨_, rfl⟩ := run_stage_skipped.mp hrun
    exact ⟨(SourceModel.imported_of_toGraph himport).coherent, fun hfalse => (by cases hfalse),
      fun _ => false, Graph.hide_eq_self fun _ _ _ => rfl⟩

end Pipeline

namespace PassRegistry

/-- Standard passes run in the order of registration. -/
theorem schedule_standard : standard.schedule =
    .ok ["FakeOutputResolver", "MaxPool", "AvgPool", "GatherNormalizer"] := rfl

theorem scheduled_standard :
    ["FakeOutputResolver", "MaxPool", "AvgPool", "GatherNormalizer"].filterMap standard.get? =
      standard := rfl

/-! ### Passes that are left out -/

/-- When a pass is switched off there is still a choice. -/
theorem exists_choice_of_setEnabled? {chosen : String → Bool} {name : String} {result : PassRegistry}
    (h : (choose chosen).setEnabled? name false = some result) : ∃ left, result = choose left := by
  obtain ⟨index, hindex, rfl⟩ := Option.map_eq_some_iff.mp h
  obtain ⟨hlt, hname, _⟩ := List.findIdx?_eq_some_iff_getElem.mp hindex
  have hposition : index = 0 ∨ index = 1 ∨ index = 2 ∨ index = 3 := by
    have hlength : (choose chosen).length = 4 := rfl
    omega
  refine ⟨fun other => decide (other ≠ name) && chosen other, ?_⟩
  rcases hposition with rfl | rfl | rfl | rfl
  all_goals
    obtain rfl := of_decide_eq_true hname
    rfl

/-- When passes are left out there is still a choice. -/
theorem exists_choice_of_disableAll {chosen : String → Bool} {names : List String}
    {registry : PassRegistry} (h : (choose chosen).disableAll names = .ok registry) :
    ∃ left, registry = choose left := by
  induction names generalizing chosen with
  | nil =>
    cases h
    exact ⟨chosen, rfl⟩
  | cons name rest ih =>
    unfold disableAll at h
    rw [List.foldlM_cons] at h
    cases hset : (choose chosen).setEnabled? name false with
    | none =>
      rw [hset] at h
      cases h
    | some next =>
      rw [hset] at h
      obtain ⟨left, rfl⟩ := exists_choice_of_setEnabled? hset
      exact ih h

/-- Chosen passes run in the order of registration. -/
theorem scheduled_choose (chosen : String → Bool) :
    ∃ order, (choose chosen).schedule = .ok order ∧
      order.filterMap (choose chosen).get? = standard.filter fun pass => chosen pass.name := by
  unfold choose
  simp only [standard, List.map_cons, List.map_nil, List.filter_cons, List.filter_nil]
  generalize chosen Pass.outputMarkers.name = markers
  generalize chosen Pass.maxPool.name = maxima
  generalize chosen Pass.avgPool.name = averages
  generalize chosen Pass.gatherAxis.name = gathers
  cases markers <;> cases maxima <;> cases averages <;> cases gathers <;> exact ⟨_, rfl, rfl⟩

end PassRegistry

/-- A pipeline runs those passes of the standard registry that are not left out, in the order of
registration. -/
theorem Pipeline.Standard.exists_choice {pipeline : Pipeline} {config : PipelineConfig}
    {schedule : List String} (h : pipeline.Standard config schedule) :
    ∃ chosen : String → Bool, schedule.filterMap pipeline.passes.get? =
      PassRegistry.standard.filter fun pass => chosen pass.name := by
  obtain ⟨chosen, hchosen⟩ := PassRegistry.exists_choice_of_disableAll
    (show (PassRegistry.choose fun _ => true).disableAll _ = _ from h.disabled)
  obtain ⟨order, horder, hscheduled⟩ := PassRegistry.scheduled_choose chosen
  have hordered := h.ordered
  rw [hchosen, horder, Except.ok.injEq] at hordered
  rw [hchosen, ← hordered]
  exact ⟨chosen, hscheduled⟩

end OpGraph
