import OpGraph.Proofs.Infer.Failure
import OpGraph.Proofs.MarkerFailures
import OpGraph.Proofs.Stages

/-!
# How a pipeline fails

After a successful import a pipeline over the standard registries can fail in five ways. Inference
finds a fault or a cycle, a gather cannot get its axis because its third input is fed already,
validation finds the outcome not canonical, or a marker cannot be renamed for a while because its
temporary name belongs to another node of the model. The last way is a flaw: the model may use the
name, and the graph is left behind half rewritten.
-/

namespace OpGraph

open Edit

/-! ### After inference -/

namespace Graph

variable {known : Graph} {hidden : NodeId → Bool} {id : NodeId}

/-- What is said of the outputs does not tell markers from other nodes. -/
theorem isMarker_hide : (known.hide hidden).IsMarker id ↔ known.IsMarker id := by
  unfold IsMarker
  rw [node?_hide]
  cases known.node? id with
  | none => simp
  | some node => cases hidden id <;> simp [Node.forgetIf, Node.forget]

/-- What the import says of markers holds as well when more is known. -/
theorem Marked.of_hide (h : (known.hide hidden).Marked) (hknown : known.Coherent) : known.Marked where
  coherent := hknown
  ports id bare hbare hmarker := by
    have hhidden : (known.hide hidden).bare? id = some (bare.forgetIf (hidden id)) := by
      rw [bare?_hide, hbare]
      rfl
    have hports := h.ports id _ hhidden (isMarker_hide.mpr hmarker)
    cases hid : hidden id <;> simpa [hid, Node.forgetIf, Node.forget] using hports
  source id hmarker := by
    have hsource := h.source id (isMarker_hide.mpr hmarker)
    rwa [inputSource?_hide] at hsource
  sink id hmarker := by
    obtain ⟨sink, index, hplain, hreads⟩ := h.sink id (isMarker_hide.mpr hmarker)
    rw [inputSource?_hide] at hreads
    exact ⟨sink, index, fun hsink => hplain (isMarker_hide.mpr hsink), hreads⟩

/-- Inference makes no node for which standard passes look. -/
theorem descends_of_hide (hknown : known.Coherent) : (known.hide hidden).Descends known := by
  refine ⟨hknown, fun id now hnow _ => ⟨now.forgetIf (hidden id), ?_, ?_, ?_, fun index hfed => ?_⟩⟩
  · rw [bare?_hide, hnow]
    rfl
  · cases hidden id <;> rfl
  · cases hidden id <;> rfl
  · rwa [inputSource?_hide]

/-- A temporary name that is taken after an inference was taken before. -/
theorem TemporaryTaken.hide {error : GraphError} (h : known.TemporaryTaken error) :
    (known.hide hidden).TemporaryTaken error := by
  obtain ⟨id, marker, hn, htype, htaken, herror⟩ := h
  have hname := marker.name_forgetIf (hidden id)
  refine ⟨id, _, node?_hide_of_some hn, ?_, ?_, ?_⟩
  · cases hidden id <;> exact htype
  · rw [hname]
    exact htaken
  · rw [hname]
    exact herror

end Graph

/-! ### Stages -/

/-- Ways in which a pipeline fails on a model that was imported. -/
inductive Graph.RunFault (imported : Graph) : GraphError → Prop where
  /-- Inference finds a fault. -/
  | inference (fault : InferenceFault) : RunFault imported (.shapeInferenceFailed fault)
  /-- The nodes cannot be ordered for inference. -/
  | cycle (nodes : List String) : RunFault imported (.validationFailed (.cycle nodes))
  /-- The third input of a gather is fed already. -/
  | axisOccupied {id : NodeId} {node : Node} {label : String} (found : imported.node? id = some node)
      (gather : node.opType = "AttributedGather")
      (fed : (imported.inputSource? id 2).isSome = true) : RunFault imported (.portOccupied label none)
  /-- The temporary name of a marker is that of a node of the model. -/
  | temporaryTaken {id : NodeId} {marker : Node} (found : imported.node? id = some marker)
      (marks : marker.opType = "FakeOutput")
      (taken : (imported.idOf? (temporaryName marker.name)).isSome = true) :
      RunFault imported (.internal (.nameTaken marker.name (temporaryName marker.name)))
  /-- The outcome is not canonical. -/
  | notCanonical (findings : List String) : RunFault imported (.validationFailed (.notCanonical findings))

namespace Pipeline.Standard

variable {config : PipelineConfig} {pipeline : Pipeline} {schedule : List String}
  {imported known : Graph} {hidden : NodeId → Bool} (h : pipeline.Standard config schedule)
include h

/-- The stage of inference fails as inference does. -/
theorem failsOnly_infer (himported : SourceModel.Imported imported) :
    FailsOnly (· = imported) (stage pipeline.config.infer (Infer.inferGraph pipeline.inference))
      imported.RunFault := by
  rw [h.inference_eq]
  refine failsOnly_stage fun _ => himported.failsOnly_inferGraph.mono (fun _ heq => heq) fun error => ?_
  rintro (⟨fault, rfl⟩ | ⟨nodes, rfl⟩)
  · exact .inference fault
  · exact .cycle nodes

omit h in
/-- The passes after the first fail with an input that is occupied. -/
theorem failsOnly_laterPasses (himported : SourceModel.Imported imported) {passes : List Pass}
    {verify : Bool} (hpasses : ∀ pass ∈ passes, pass ∈ [Pass.maxPool, .avgPool, .gatherAxis])
    (stats : PassStats) :
    FailsOnly imported.Descends (passes.foldlM (fun (stats : PassStats) (pass : Pass) =>
      return stats ++ (← pass.run verify)) stats) imported.RunFault := by
  refine failsOnly_run_passes (fun pass hmem => ?_) (fun pass hmem => ?_) stats
  · have hpass := hpasses pass hmem
    simp only [List.mem_cons, List.not_mem_nil, or_false] at hpass
    rcases hpass with rfl | rfl | rfl
    · exact failsOnly_run_pooling verify (.inl rfl)
    · exact failsOnly_run_pooling verify (.inr rfl)
    · refine (failsOnly_run_gatherAxis verify himported.axis).mono (fun _ h => h) fun error => ?_
      rintro ⟨id, node, label, hn, htype, hfed, rfl⟩
      exact .axisOccupied hn htype hfed
  · have hstandard : pass.Standard :=
      PassRegistry.standard_of_mem (List.mem_cons_of_mem _ (hpasses pass hmem))
    exact hstandard.ensures_descends verify

/-- The stage of passes fails with an input that is occupied or a temporary name that is taken. -/
theorem failsOnly_passes (himported : SourceModel.Imported (known.hide hidden))
    (hmarked : (known.hide hidden).Marked) (hknown : known.Coherent) :
    FailsOnly (· = known) (stage pipeline.config.runPasses
      (pipeline.passes.run pipeline.config.verifyPostconditions)) (known.hide hidden).RunFault := by
  refine failsOnly_stage fun _ => failsOnly_ofExcept_bind h.ordered ?_
  obtain ⟨chosen, hchosen⟩ := h.exists_choice
  rw [hchosen]
  have hstart : (known.hide hidden).Descends known := Graph.descends_of_hide hknown
  have hlater : ∀ pass ∈ [Pass.maxPool, .avgPool, .gatherAxis].filter (chosen ·.name),
      pass ∈ [Pass.maxPool, .avgPool, .gatherAxis] := fun pass hmem => (List.mem_filter.mp hmem).1
  change FailsOnly _ (List.foldlM _ _ ((Pass.outputMarkers :: _).filter _)) _
  rw [List.filter_cons]
  split
  · -- Markers are resolved first, while the graph is as it was after the inference.
    have hfirst : FailsOnly (· = known)
        (Pass.outputMarkers.run pipeline.config.verifyPostconditions) (known.hide hidden).RunFault :=
      ((hmarked.of_hide hknown).failsOnly_run _).mono (fun _ heq => heq) fun error htaken => by
        obtain ⟨id, marker, hn, htype, htaken, rfl⟩ := htaken.hide
        exact .temporaryTaken hn htype htaken
    have hstandard : Pass.outputMarkers.Standard :=
      PassRegistry.standard_of_mem (by simp [PassRegistry.standard])
    have hkeep : Ensures (· = known) (Pass.outputMarkers.run pipeline.config.verifyPostconditions)
        fun _ => (known.hide hidden).Descends := fun graph value result heq hrun =>
      hstandard.ensures_descends _ graph value result (heq ▸ hstart) hrun
    rw [List.foldlM_cons]
    refine failsOnly_bind (Q := fun _ => (known.hide hidden).Descends)
      (failsOnly_bind hfirst (fun _ _ _ _ _ => trivial) fun _ => failsOnly_pure _)
      (ensures_bind hkeep fun _ => ensures_pure fun _ h => h) fun stats => ?_
    exact failsOnly_laterPasses himported hlater stats
  · exact (failsOnly_laterPasses himported hlater _).mono (fun _ heq => heq ▸ hstart) fun _ h => h

end Pipeline.Standard

/-- Validation fails because the outcome is not canonical. -/
theorem failsOnly_checkCanonical {P : Graph → Prop} {chosen : Bool} {imported : Graph} :
    FailsOnly P (Pipeline.stage chosen (check (·.checkCanonical))) imported.RunFault := by
  refine Pipeline.failsOnly_stage fun _ => failsOnly_check fun graph error _ herror => ?_
  simp only [Graph.checkCanonical] at herror
  split at herror
  · cases herror
  · cases herror
    exact .notCanonical _

/-- A pipeline over the standard registries, whatever stages and passes it leaves out, fails on a
model that can be imported in one of the five ways only. The one fault that is internal is that the
temporary name of a marker is taken. -/
theorem runFault_of_pipeline {config : PipelineConfig} {pipeline : Pipeline} {schedule : List String}
    {model : SourceModel} {imported : Graph} {error : GraphError}
    (hbuild : ({ config } : Pipeline).build = .ok (pipeline, schedule))
    (himport : model.toGraph .standard = .ok imported)
    (hrun : pipeline.run model = .error error) : imported.RunFault error := by
  have hpipeline := Pipeline.standard_of_build hbuild
  obtain ⟨left, hstages⟩ := Pipeline.exists_of_run_eq_error
    (by rw [hpipeline.extractors_eq]; exact himport) hrun
  have himported := SourceModel.imported_of_toGraph himport
  obtain ⟨extracted, names, _, hlaid⟩ :=
    SourceModel.laid_of_toGraph himport ExtractorRegistry.leavesMarkers_standard
  rcases run_bind_eq_error.mp hstages with hinfer | ⟨infer, known, hinfer, hrest⟩
  · exact hpipeline.failsOnly_infer himported imported error left rfl hinfer
  · obtain ⟨hknown, _, hidden, rfl⟩ := hpipeline.settled_of_infer himport hinfer
    rcases run_bind_eq_error.mp hrest with hpasses | ⟨passes, canonical, _, hrest⟩
    · exact hpipeline.failsOnly_passes himported hlaid.marked_graph hknown known error left rfl hpasses
    · rcases run_bind_eq_error.mp hrest with hvalidation | ⟨_, _, _, hpure⟩
      · exact failsOnly_checkCanonical (P := fun _ => True) canonical error left trivial hvalidation
      · cases hpure

/-! ### Runs that fail -/

/-- The full pipeline imports the model and ends in the error. -/
def Pipeline.endsIn (model : SourceModel) (error : GraphError) : Bool :=
  match ({} : Pipeline).build, model.toGraph .standard with
  | .ok (pipeline, _), .ok _ => match pipeline.run model with
    | .ok _ => false
    | .error own => own = error
  | _, _ => false

theorem Pipeline.exists_of_endsIn {model : SourceModel} {error : GraphError}
    (h : endsIn model error = true) :
    ∃ pipeline schedule imported, ({} : Pipeline).build = .ok (pipeline, schedule) ∧
      model.toGraph .standard = .ok imported ∧ pipeline.run model = .error error := by
  unfold endsIn at h
  split at h
  · rename_i pipeline schedule imported hbuild himport
    split at h
    · cases h
    · rename_i own hrun
      exact ⟨pipeline, schedule, imported, hbuild, himport, of_decide_eq_true h ▸ hrun⟩
  · cases h

/-- A gather whose third input is fed in the model. -/
def SourceModel.thirdInputFed : SourceModel where
  format := .onnx
  inputs := [("x", [2, 4]), ("i", [1]), ("k", [1])]
  operators := [{ name := "g", operator := "Gather", record := .empty, inputs := 3, outputs := 1 }]
  edges := [⟨"x", 0, "g", 0⟩, ⟨"i", 0, "g", 1⟩, ⟨"k", 0, "g", 2⟩]
  outputs := [⟨"y", "g", 0⟩]

/-- A run ends at the gather that has no room for its axis. By then the gather has the name of the
requested output. -/
theorem runFault_of_pipeline_thirdInputFed :
    ∃ pipeline schedule imported, ({} : Pipeline).build = .ok (pipeline, schedule) ∧
      SourceModel.thirdInputFed.toGraph .standard = .ok imported ∧
        pipeline.run .thirdInputFed = .error (.portOccupied "y:in2" none) ∧
          imported.RunFault (.portOccupied "y:in2" none) := by
  obtain ⟨pipeline, schedule, imported, hbuild, himport, hrun⟩ :=
    Pipeline.exists_of_endsIn
      (show Pipeline.endsIn .thirdInputFed (.portOccupied "y:in2" none) = true by decide +kernel)
  exact ⟨pipeline, schedule, imported, hbuild, himport, hrun, runFault_of_pipeline hbuild himport hrun⟩

/-- An input bears the temporary name of the marker of the one requested output. -/
def SourceModel.temporaryNameUsed : SourceModel where
  format := .onnx
  inputs := [("a/TBD", [4])]
  operators := [{ name := "r", operator := "Relu", record := .empty, inputs := 1, outputs := 1 }]
  edges := [⟨"a/TBD", 0, "r", 0⟩]
  outputs := [⟨"a", "r", 0⟩]

/-- A model that can be imported makes a run end in an internal error, though names are all that is
special about it. -/
theorem internal_error_temporaryNameUsed :
    ∃ pipeline schedule imported, ({} : Pipeline).build = .ok (pipeline, schedule) ∧
      SourceModel.temporaryNameUsed.toGraph .standard = .ok imported ∧
        pipeline.run .temporaryNameUsed = .error (.internal (.nameTaken "a" "a/TBD")) :=
  Pipeline.exists_of_endsIn (by decide +kernel)

end OpGraph
