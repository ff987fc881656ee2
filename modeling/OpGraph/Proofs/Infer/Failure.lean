import OpGraph.Proofs.Edit.Failure
import OpGraph.Proofs.Source.Imported

/-!
# How inference fails

A function of the standard registry fails with an inference fault, and so does whatever asks for
what is known at an input. Over an imported graph nothing else can go wrong: a visited node exists,
nothing was said about its outputs before, and the function of its type finds out as much as there
are outputs. So the whole inference fails with such a fault, or because of a cycle.
-/

namespace OpGraph

open Edit

namespace Infer

variable {α β : Type} {node : Node} {inputs : List TensorInfo}

/-- If the computation fails, then with an inference fault. -/
def FaultsOnly (outcome : Except GraphError α) : Prop :=
  ∀ error, outcome = .error error → ∃ reason, error = .shapeInferenceFailed reason

theorem faultsOnly_ok (value : α) : FaultsOnly (.ok value) := fun _ h => by cases h

theorem faultsOnly_error (reason : InferenceFault) :
    FaultsOnly (.error (.shapeInferenceFailed reason) : Except GraphError α) := fun error h => by
  cases h
  exact ⟨reason, rfl⟩

theorem faultsOnly_bind {outcome : Except GraphError α} {f : α → Except GraphError β}
    (houtcome : FaultsOnly outcome) (hf : ∀ value, FaultsOnly (f value)) :
    FaultsOnly (outcome >>= f) := by
  cases outcome with
  | ok value => exact hf value
  | error error =>
    intro other h
    cases h
    exact houtcome error rfl

theorem faultsOnly_mapM {f : α → Except GraphError β} (hf : ∀ item, FaultsOnly (f item))
    (items : List α) : FaultsOnly (items.mapM f) := by
  induction items with
  | nil =>
    rw [List.mapM_nil]
    exact faultsOnly_ok []
  | cons head tail ih =>
    rw [List.mapM_cons]
    exact faultsOnly_bind (hf head) fun _ => faultsOnly_bind ih fun _ => faultsOnly_ok _

theorem faultsOnly_ite {condition : Prop} [Decidable condition] {first second : Except GraphError α}
    (hfirst : FaultsOnly first) (hsecond : FaultsOnly second) :
    FaultsOnly (if condition then first else second) := by
  split
  · exact hfirst
  · exact hsecond

/-! ### Functions -/

theorem faultsOnly_require (reason : NodeFault) (found : Option α) :
    FaultsOnly (require node reason found) := by
  cases found with
  | some value => exact faultsOnly_ok value
  | none => exact faultsOnly_error _

theorem faultsOnly_parameter : FaultsOnly (parameter node inputs) :=
  faultsOnly_bind (faultsOnly_require _ _) fun _ => faultsOnly_ok _

theorem faultsOnly_const : FaultsOnly (const node inputs) :=
  faultsOnly_bind (faultsOnly_require _ _) fun _ => faultsOnly_ok _

theorem faultsOnly_shapeOf : FaultsOnly (shapeOf node inputs) :=
  faultsOnly_bind (faultsOnly_require _ _) fun _ => faultsOnly_ok _

theorem faultsOnly_elementwise : FaultsOnly (elementwise node inputs) :=
  faultsOnly_bind (faultsOnly_require _ _) fun _ => faultsOnly_ok _

theorem faultsOnly_normalizeAxis (axis : Int) (rank : Nat) : FaultsOnly (normalizeAxis axis rank) :=
  faultsOnly_ite (faultsOnly_error _) (faultsOnly_ok _)

theorem faultsOnly_foldGather (rank : Nat) (data indices : Option (List Int)) :
    FaultsOnly (foldGather node rank data indices) := by
  unfold foldGather
  split
  · exact faultsOnly_ite (faultsOnly_bind (faultsOnly_mapM (fun _ => faultsOnly_require _ _) _)
      fun _ => faultsOnly_ok _) (faultsOnly_ok _)
  · exact faultsOnly_ok _

theorem faultsOnly_gatherAlong (axis : Int) : FaultsOnly (gatherAlong node inputs axis) :=
  faultsOnly_bind (faultsOnly_require _ _) fun _ => faultsOnly_bind (faultsOnly_require _ _) fun _ =>
    faultsOnly_bind (faultsOnly_normalizeAxis _ _) fun _ =>
      faultsOnly_bind (faultsOnly_foldGather _ _ _) fun _ => faultsOnly_ok _

theorem faultsOnly_attributedGather : FaultsOnly (attributedGather node inputs) :=
  faultsOnly_bind (faultsOnly_require _ _) fun axis => faultsOnly_gatherAlong axis

theorem faultsOnly_gather : FaultsOnly (gather node inputs) := by
  refine faultsOnly_bind (faultsOnly_require _ _) fun value => ?_
  split
  · exact faultsOnly_gatherAlong _
  · exact faultsOnly_error _

theorem faultsOnly_outputExtent (axis : PoolAxis) (autoPad roundUp : Bool) :
    FaultsOnly (axis.outputExtent autoPad roundUp) :=
  faultsOnly_ite (faultsOnly_ok _) <| faultsOnly_ite (faultsOnly_ok _) <|
    faultsOnly_ite (faultsOnly_error _) <| faultsOnly_ite (faultsOnly_error _) (faultsOnly_ok _)

theorem faultsOnly_pooling : FaultsOnly (pooling node inputs) := by
  refine faultsOnly_bind (faultsOnly_require _ _) fun input =>
    faultsOnly_bind (faultsOnly_require _ _) fun window => ?_
  refine faultsOnly_ite (faultsOnly_error _) ?_
  refine faultsOnly_ite (faultsOnly_ok _) ?_
  refine faultsOnly_ite (faultsOnly_error _) ?_
  split
  · exact faultsOnly_error _
  · exact faultsOnly_bind (faultsOnly_mapM (fun axis => faultsOnly_outputExtent axis _ _) _)
      fun _ => faultsOnly_ok _

theorem faultsOnly_priorCount : FaultsOnly (priorCount node) :=
  faultsOnly_bind (faultsOnly_require _ _) fun _ => faultsOnly_bind (faultsOnly_require _ _) fun _ =>
    faultsOnly_ite (faultsOnly_error _) <| faultsOnly_ite (faultsOnly_error _) (faultsOnly_ok _)

theorem faultsOnly_priorGrid (layout : PriorLayout) : FaultsOnly (priorGrid node inputs layout) := by
  cases layout with
  | legacy =>
    refine faultsOnly_bind (faultsOnly_require _ _) fun value => ?_
    split
    · exact faultsOnly_ok _
    · exact faultsOnly_error _
  | current =>
    refine faultsOnly_bind (faultsOnly_require _ _) fun shape => ?_
    split
    · exact faultsOnly_ok _
    · exact faultsOnly_error _

theorem faultsOnly_multiBoxPrior : FaultsOnly (multiBoxPrior node inputs) :=
  faultsOnly_bind faultsOnly_priorCount fun _ => faultsOnly_bind (faultsOnly_priorGrid _) fun _ =>
    faultsOnly_bind (faultsOnly_ite (faultsOnly_ok _) (faultsOnly_require _ _)) fun _ =>
      faultsOnly_ok _

/-- Every function of the standard registry fails with an inference fault. -/
theorem faultsOnly_of_get?_standard {opType : String} {f : InferFn}
    (hf : InferRegistry.standard.get? opType = some f) : FaultsOnly (f node inputs) := by
  cases standardFn_of_get?_standard hf with
  | parameter => exact faultsOnly_parameter
  | const => exact faultsOnly_const
  | shapeOf => exact faultsOnly_shapeOf
  | attributedGather => exact faultsOnly_attributedGather
  | gather => exact faultsOnly_gather
  | pooling => exact faultsOnly_pooling
  | multiBoxPrior => exact faultsOnly_multiBoxPrior
  | result => exact faultsOnly_ok []
  | elementwise => exact faultsOnly_elementwise

/-! ### Nodes -/

theorem faultsOnly_portInfo (graph : Graph) (id : NodeId) (port : InputPort) :
    FaultsOnly (portInfo graph id port) := by
  unfold portInfo
  refine faultsOnly_ite (faultsOnly_ok _) ?_
  split
  · exact faultsOnly_ok _
  · exact faultsOnly_error _

/-- Only graph outputs have a function that does not look at the number of outputs. -/
theorem length_of_ok {opType : String} {f : InferFn} {outputs : List TensorInfo}
    (hf : InferRegistry.standard.get? opType = some f)
    (hsink : opType = "Result" → node.outputs = []) (hok : f node inputs = .ok outputs) :
    outputs.length = node.outputs.length := by
  rcases uniform_of_get?_standard hf with huniform | ⟨htype, rfl⟩
  · obtain ⟨info, _, hall⟩ := huniform node inputs outputs hok
    have hown := hall node rfl
    rw [hok, Except.ok.injEq] at hown
    rw [hown, replicate, List.length_replicate]
  · cases hok
    rw [hsink htype]
    rfl

/-- A node whose function fits the number of its outputs fails with an inference fault. -/
theorem faultsOnly_nodeOutputs (graph : Graph) (id : NodeId)
    (hsink : node.opType = "Result" → node.outputs = []) :
    FaultsOnly (nodeOutputs .standard graph id node) := by
  unfold nodeOutputs
  cases hf : InferRegistry.standard.get? node.opType with
  | none => exact faultsOnly_error _
  | some f =>
    refine faultsOnly_bind (faultsOnly_mapM (faultsOnly_portInfo graph id) _) fun inputs => ?_
    intro error herror
    cases hok : f node inputs with
    | error own =>
      rw [hok] at herror
      cases herror
      exact faultsOnly_of_get?_standard hf _ hok
    | ok outputs =>
      rw [hok] at herror
      change (if outputs.length ≠ node.outputs.length then _ else _) = _ at herror
      rw [if_neg (not_not.mpr (length_of_ok hf hsink hok))] at herror
      cases herror

variable {graph : Graph} {id : NodeId}

/-- Inference of a node that exists and of which nothing is known fails with an inference fault. -/
theorem fault_of_run_inferNode (h : graph.Coherent) (hn : graph.node? id = some node)
    (hblank : node.IsBlank) (hsink : node.opType = "Result" → node.outputs = []) {error : GraphError}
    {result : Graph} (hrun : (inferNode .standard id).run graph = .error error result) :
    ∃ reason, error = .shapeInferenceFailed reason := by
  have hunfolded := hrun
  unfold inferNode at hunfolded
  replace hunfolded := run_of_run_check_bind hunfolded (graph.requireNode_eq_ok_iff.mpr hn)
  rw [if_neg (by rw [hblank.isAnnotated]; decide)] at hunfolded
  rcases run_check_bind_eq_error.mp hunfolded with ⟨herror, _⟩ | ⟨outputs, houtputs, _⟩
  · exact faultsOnly_nodeOutputs graph id hsink error herror
  · -- What was found out can be written.
    obtain ⟨_, _, hinfers⟩ := (h.nodeOutputs_eq_ok_iff hn).mp houtputs
    rw [run_inferNode_of_isBlank hn hblank houtputs hinfers.length_eq] at hrun
    cases hrun

end Infer

/-! ### The whole inference -/

namespace Graph

variable {graph now result : Graph} {done order : List NodeId} {stats : InferStats}
  {error : GraphError}

/-- An inference of nodes of which nothing is known fails with an inference fault. -/
theorem Visited.fault_of_run_inferAll (h : Visited .standard graph done now)
    (horder : graph.SourcesFirst done order)
    (hclosed : ∀ id ∈ done, ∀ source, graph.Reads id source → source ∈ done)
    (hexists : ∀ id ∈ order, (graph.node? id).isSome = true)
    (hblank : ∀ id node, graph.node? id = some node → node.IsBlank)
    (hsink : ∀ id node, graph.node? id = some node → node.opType = "Result" → node.outputs = [])
    (hrun : (Infer.inferAll .standard order stats).run now = .error error result) :
    ∃ reason, error = .shapeInferenceFailed reason := by
  induction order generalizing now done stats with
  | nil => cases hrun
  | cons id rest ih =>
    obtain ⟨node, hn⟩ := Option.isSome_iff_exists.mp (hexists id (by simp))
    unfold Infer.inferAll at hrun
    rcases run_bind_eq_error.mp hrun with hvisit | ⟨inferred, middle, hvisit, hrun⟩
    · exact Infer.fault_of_run_inferNode h.coherent ((h.node?_of_notMem horder.1).trans hn)
        (hblank id node hn) (hsink id node hn) hvisit
    · obtain ⟨hstep, hclosed⟩ := h.step_of_sourcesFirst horder hclosed hn hvisit
      have hexists : ∀ other ∈ rest, (graph.node? other).isSome = true := fun other hother =>
        hexists other (List.mem_cons_of_mem id hother)
      cases inferred with
      | false => exact ih hstep horder.2.2 hclosed hexists hrun
      | true => exact ih hstep horder.2.2 hclosed hexists hrun

end Graph

/-- Inference of an imported graph fails with an inference fault or because of a cycle. -/
theorem SourceModel.Imported.failsOnly_inferGraph {graph : Graph} (h : Imported graph) :
    FailsOnly (· = graph) (Infer.inferGraph .standard) fun error =>
      (∃ reason, error = .shapeInferenceFailed reason) ∨
        ∃ nodes, error = .validationFailed (.cycle nodes) := by
  intro start error result hstart hrun
  rw [hstart] at hrun
  rcases run_check_bind_eq_error.mp hrun with ⟨herror, _⟩ | ⟨order, horder, hrun⟩
  · simp only [Graph.topologicalOrder] at herror
    split at herror
    · cases herror
    · cases herror
      exact .inr ⟨_, rfl⟩
  · obtain ⟨hsources, hmem⟩ := h.coherent.sourcesFirst_of_order horder
    refine .inl ((Graph.Visited.none h.coherent).fault_of_run_inferAll hsources
      (fun _ hid => absurd hid List.not_mem_nil) (fun id hid => (hmem id).mp hid) h.blank
      (fun id node hn htype => ?_) hrun)
    simpa [Node.bare] using h.sink id node.bare (Graph.bare?_of_node? hn) htype

end OpGraph
