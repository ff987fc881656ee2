import OpGraph.Infer.Registry
import OpGraph.Infer.Run
import OpGraph.Pass.Run
import OpGraph.Pass.Standard
import OpGraph.Source.Model
import OpGraph.Validation

/-!
# Pipeline

A pipeline takes a source model to a canonical graph: it imports the model, infers
what is known about its tensors, runs the passes and validates the outcome. Every
stage after the import can be left out. A pipeline whose passes admit no order cannot
be built, so this kind of error shows before any graph is touched.
-/

namespace OpGraph

/-- Choice of the stages. -/
structure PipelineConfig where
  /-- Infer shapes and values before the passes. -/
  infer : Bool := true
  /-- Run the passes. -/
  runPasses : Bool := true
  /-- Validate the outcome. -/
  validateOutput : Bool := true
  /-- Test that no match of a pass holds after its turn. -/
  verifyPostconditions : Bool := true
  /-- Names of the passes that are left out. -/
  disabledPasses : List String := []

/-- Import a model and do nothing else. -/
def PipelineConfig.extractOnly : PipelineConfig :=
  { infer := false, runPasses := false, validateOutput := false }

/-- Account of one run. A stage that was left out has no entry. -/
structure PipelineReport where
  /-- Number of operators in the source model. -/
  imported : Nat
  /-- Counts of the inference. -/
  infer : Option InferStats
  /-- Counts of the passes. -/
  passes : Option PassStats
  /-- Report of the validation. -/
  validation : Option ValidationReport
  deriving DecidableEq

/-- Stages with the tables that they work from. -/
structure Pipeline where
  /-- Choice of the stages. -/
  config : PipelineConfig := {}
  /-- Extractors of the import. -/
  extractors : ExtractorRegistry := .standard
  /-- Functions of the inference. -/
  inference : InferRegistry := .standard
  /-- Passes. -/
  passes : PassRegistry := .standard

namespace PassRegistry

/-- Disable passes by name; each name must be registered. -/
def disableAll (registry : PassRegistry) (names : List String) : Except GraphError PassRegistry :=
  names.foldlM (fun (registry : PassRegistry) name =>
    match registry.setEnabled? name false with
    | some registry => .ok registry
    | none => .error (.unknownPass "disabled_passes" name)) registry

end PassRegistry

namespace Pipeline

/-- Disable the passes that are left out and make sure that the others can be ordered.
The result holds the names of the passes in the order in which they run. -/
def build (pipeline : Pipeline) : Except GraphError (Pipeline × List String) := do
  let passes ← pipeline.passes.disableAll pipeline.config.disabledPasses
  let schedule ← passes.schedule
  return ({ pipeline with passes }, schedule)

/-- A stage that may be left out. -/
def stage {α : Type} (chosen : Bool) (edit : Edit α) : Edit (Option α) :=
  if chosen then return some (← edit) else return none

/-- Run the chosen stages on a graph. -/
def canonicalize (pipeline : Pipeline) : Edit PipelineReport := do
  let config := pipeline.config
  let infer ← stage config.infer (Infer.inferGraph pipeline.inference)
  let passes ← stage config.runPasses (pipeline.passes.run config.verifyPostconditions)
  let validation ← stage config.validateOutput (Edit.check (·.checkCanonical))
  return ⟨0, infer, passes, validation⟩

/-- Import a model and run the chosen stages on its graph. -/
def run (pipeline : Pipeline) (model : SourceModel) : Except GraphError (Graph × PipelineReport) := do
  let graph ← model.toGraph pipeline.extractors
  match pipeline.canonicalize.run graph with
  | .ok report graph => return (graph, { report with imported := model.operators.length })
  | .error error _ => throw error

end Pipeline

end OpGraph
