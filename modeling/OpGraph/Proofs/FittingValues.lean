import OpGraph.Proofs.Infer.FittingValues
import OpGraph.Proofs.Infer.Visited
import OpGraph.Proofs.Pass.MarkerSettled
import OpGraph.Proofs.Pass.Turns

/-!
# Values that fit their shapes throughout a graph

If every value that is known in a graph fits the shape that is known with it, and every constant
declares a shape that fits its value, so it is after inference and after any standard passes that
follow. Inference says of a node what its function finds out from what fits already. A pass leaves
what is known as it is, copies it to a further output of the same node, or adds a constant of one
element; the terminals that it attaches deliver nothing.
-/

namespace OpGraph

open Edit

/-- Whatever is known about the outputs of the node fits. -/
def Node.OutputsFit (node : Node) : Prop :=
  ∀ port ∈ node.outputs, ∀ info, port.info = some info → info.Fits

namespace Graph

/-- Whatever is known about an output port of the graph fits. -/
def ValuesFit (graph : Graph) : Prop := ∀ id node, graph.node? id = some node → node.OutputsFit

/-- The value of a constant fits the shape that the constant declares, where both are lists of
integers. -/
def ConstantsFit (graph : Graph) : Prop :=
  ∀ id node, graph.node? id = some node → node.opType = "Const" → node.declared.Fits

end Graph

variable {graph later result : Graph} {pass : Pass} {id : NodeId} {node : Node} {make : Node → Node}
  {inputs outputs : List TensorInfo} {verify : Bool}

/-! ### Nodes -/

namespace Node

/-- Nothing known fits. -/
theorem OutputsFit.of_blank (h : ∀ port ∈ node.outputs, port.info = none) : node.OutputsFit :=
  fun port hport info hinfo => by
    rw [h port hport] at hinfo
    cases hinfo

/-- Connections do not matter. -/
theorem outputsFit_bare : node.bare.OutputsFit ↔ node.OutputsFit := by
  simp [OutputsFit, bare]

/-- What a node is informed of is what is known. -/
theorem OutputsFit.inform (hlength : outputs.length = node.outputs.length)
    (hfit : ∀ info ∈ outputs, info.Fits) : (node.inform 0 outputs).OutputsFit := by
  intro port hport info hinfo
  obtain ⟨said, hsaid, hsame⟩ := exists_info_of_mem_inform hlength hport
  rw [hinfo, Option.some.injEq] at hsame
  exact hsame ▸ hfit said hsaid

/-- The port for the positions is known as well as the first one. -/
theorem OutputsFit.withIndices (h : node.OutputsFit) : node.withIndices.OutputsFit := by
  intro port hport info hinfo
  rcases List.mem_append.mp hport with hold | hnew
  · exact h port hold info hinfo
  · rw [List.mem_singleton.mp hnew] at hinfo
    obtain ⟨first, hfirst, hknown⟩ := Option.bind_eq_some_iff.mp hinfo
    exact h first (List.mem_of_getElem? hfirst) info hknown

theorem OutputsFit.toMaxPool (h : node.OutputsFit) : node.toMaxPool.OutputsFit := by
  unfold Node.toMaxPool
  split
  · exact h.withIndices
  · exact h

theorem OutputsFit.toAvgPool (h : node.OutputsFit) : node.toAvgPool.OutputsFit := h

end Node

/-! ### Graphs -/

namespace Graph

theorem valuesFit_iff_bare? :
    graph.ValuesFit ↔ ∀ id bare, graph.bare? id = some bare → bare.OutputsFit := by
  constructor
  · intro h id bare hbare
    obtain ⟨node, hn, rfl⟩ := Option.map_eq_some_iff.mp hbare
    exact Node.outputsFit_bare.mpr (h id node hn)
  · exact fun h id node hn => Node.outputsFit_bare.mp (h id node.bare (bare?_of_node? hn))

namespace ValuesFit

variable (h : graph.ValuesFit)
include h

/-- What is known about a port fits. -/
theorem fits {port : PortRef} {info : TensorInfo} (hinfo : graph.outputInfo? port = some info) :
    info.Fits := by
  obtain ⟨node, output, hn, houtput, hsaid⟩ := exists_output_of_outputInfo? hinfo
  exact h port.node node hn output houtput info hsaid

/-- What is received fits. -/
theorem receives {count : Nat} (hreceives : graph.Receives id count inputs) :
    ∀ info ∈ inputs, info.Fits := by
  intro info hinfo
  obtain ⟨index, hindex, rfl⟩ := List.getElem_of_mem hinfo
  have hknown := hreceives.2 index (hreceives.1 ▸ hindex)
  rw [List.getElem?_eq_getElem hindex, known?] at hknown
  split at hknown
  · rw [← Option.some.inj hknown]
    exact TensorInfo.fits_unknown
  · exact h.fits (Option.filter_eq_some_iff.mp hknown).1

/-- A change of one node keeps to the rule if the node does. -/
theorem modifyNode {f : Node → Node}
    (hf : ∀ node, graph.node? id = some node → node.OutputsFit → (f node).OutputsFit) :
    (graph.modifyNode id f).ValuesFit := by
  intro other now hnow
  rw [node?_modifyNode] at hnow
  split at hnow
  · rename_i hother
    subst hother
    obtain ⟨node, hn, rfl⟩ := Option.map_eq_some_iff.mp hnow
    exact hf node hn (h other node hn)
  · exact h other now hnow

/-- New nodes keep to the rule if nothing is known about them. -/
theorem attached {owner : Node} {ports : List Nat} {terminals : List Terminal}
    (hattached : graph.Attached id owner ports terminals later) : later.ValuesFit := by
  rw [valuesFit_iff_bare?] at h ⊢
  intro other bare hbare
  rcases hattached.extended.bare?_iff.mp hbare with hold | hnew
  · exact h other bare hold
  · obtain ⟨terminal, hterminal, hsame⟩ := List.mem_map.mp hnew
    cases hsame
    exact .of_blank (hattached.ends terminal hterminal).made.blank

/-- A bypass leaves what is known about the other nodes. -/
theorem bypassed {name : String} {source : PortRef}
    (hbypassed : Bypassed graph id name source result) : result.ValuesFit := by
  rw [valuesFit_iff_bare?] at h ⊢
  intro other now hnow
  obtain ⟨bare, hbare, hsame⟩ := hbypassed.exists_before hnow
  rw [hsame]
  exact h other bare hbare

/-- The constant for the axis of a gather has one element and says so. -/
theorem moveAxis (hgraph : graph.Coherent) (hn : graph.node? id = some node) (axis : Int) :
    (graph.moveAxis id node axis).ValuesFit := by
  intro other now hnow
  rw [hgraph.node?_moveAxis hn] at hnow
  split at hnow
  · cases hnow
    exact h id node hn
  · split at hnow
    · cases hnow
      intro port hport info hinfo
      rw [List.mem_singleton.mp hport] at hinfo
      cases hinfo
      exact TensorInfo.fits_ofValue [axis]
    · exact h other now hnow

end ValuesFit

end Graph

/-! ### Inference -/

/-- A visit of a node that succeeds says what fits, and constants declare what they declared. -/
theorem ensures_valuesFit_inferNode (id : NodeId) :
    Ensures (fun graph => graph.Coherent ∧ graph.ValuesFit ∧ graph.ConstantsFit)
      (Infer.inferNode .standard id)
      fun _ graph => graph.Coherent ∧ graph.ValuesFit ∧ graph.ConstantsFit := by
  rintro graph inferred result ⟨h, hfit, hdeclared⟩ hrun
  obtain ⟨node, hrequired, _⟩ := run_check_bind_eq_ok.mp hrun
  have hn := graph.requireNode_eq_ok_iff.mp hrequired
  rcases (Infer.run_inferNode_eq_ok_iff h hn).mp hrun with ⟨_, _, rfl⟩ |
    ⟨_, _, _, inputs, outputs, hreceives, ⟨f, hf, hok, hlength⟩, rfl⟩
  · exact ⟨h, hfit, hdeclared⟩
  · have houtputs := Infer.fits_of_get?_standard hf (hfit.receives hreceives) (hdeclared id node hn) hok
    refine ⟨h.change (.modifyNode id (.inform outputs)), hfit.modifyNode fun own hown _ => ?_,
      fun other now hnow => ?_⟩
    · rw [hn, Option.some.injEq] at hown
      exact .inform (hown ▸ hlength) houtputs
    · rw [Graph.inform, Graph.node?_modifyNode] at hnow
      split at hnow
      · obtain ⟨own, hown, rfl⟩ := Option.map_eq_some_iff.mp hnow
        rw [Node.inform_eq]
        exact hdeclared other own hown
      · exact hdeclared other now hnow

/-- Inference that succeeds leaves a graph behind in which every value fits. -/
theorem valuesFit_of_run_inferGraph {stats : InferStats} (h : graph.Coherent) (hfit : graph.ValuesFit)
    (hdeclared : graph.ConstantsFit) (hrun : (Infer.inferGraph .standard).run graph = .ok stats result) :
    result.Coherent ∧ result.ValuesFit := by
  obtain ⟨order, answers, _, hvisits, _⟩ := Infer.run_inferGraph_eq_ok_iff.mp hrun
  obtain ⟨hresult, hfits, _⟩ := ensures_mapM (fun id _ => ensures_valuesFit_inferNode id) graph answers
    result ⟨h, hfit, hdeclared⟩ hvisits
  exact ⟨hresult, hfits⟩

/-! ### Passes -/

/-- Resolving a marker adds nothing to what is known. -/
theorem valuesFit_of_run_resolveMarker (h : graph.Coherent) (hfit : graph.ValuesFit) {found : Match}
    (hrun : (resolveMarker found).run graph = .ok () result) : result.ValuesFit := by
  obtain ⟨id, marker, source, producer, _, _, _, _, hresolved⟩ := resolved_of_run h hrun
  cases hresolved with
  | bypassed _ hbypassed => exact hfit.bypassed hbypassed
  | identity _ hchanged =>
    rw [hchanged]
    exact hfit.modifyNode fun _ _ hown => hown

/-- Making a pooling of a known method repeats what is known at most. -/
theorem Pass.Recasts.valuesFit_of_visit (hpass : pass.Recasts make)
    (hmake : ∀ node, node.OutputsFit → (make node).OutputsFit) (h : graph.Coherent)
    (hn : graph.node? id = some node) (hfit : graph.ValuesFit)
    (hrun : (pass.apply ⟨[("pool", id)]⟩).run graph = .ok () result) : result.ValuesFit := by
  obtain ⟨_, _, _, hattached⟩ := hpass.attached_of_visit h hn hrun
  exact (hfit.modifyNode fun own _ => hmake own).attached hattached

/-- A visit of a standard pass says nothing that does not fit. -/
theorem Pass.Standard.valuesFit_of_visit (hpass : pass.Standard) (h : graph.Coherent)
    (hn : graph.node? id = some node) (hfit : graph.ValuesFit)
    (hrun : (pass.visit id).run graph = .ok () result) : result.ValuesFit := by
  obtain ⟨builtIn, hmem, hvisit⟩ := hpass.exists_visit_eq
  rw [hvisit] at hrun
  simp only [PassRegistry.standard, List.mem_cons, List.not_mem_nil, or_false] at hmem
  rcases hmem with rfl | rfl | rfl | rfl
  · exact valuesFit_of_run_resolveMarker h hfit hrun
  · exact recasts_maxPool.valuesFit_of_visit (fun _ => .toMaxPool) h hn hfit hrun
  · exact recasts_avgPool.valuesFit_of_visit (fun _ => .toAvgPool) h hn hfit hrun
  · obtain ⟨axis, _, _, rfl⟩ := eq_moveAxis_of_run_canonizeGather h hn hrun
    exact hfit.moveAxis h hn axis

/-- A run of a standard pass says nothing that does not fit. -/
theorem Pass.Standard.ensures_valuesFit (hpass : pass.Standard) (verify : Bool) :
    Ensures (fun graph => graph.Coherent ∧ graph.ValuesFit) (pass.run verify)
      fun _ graph => graph.Coherent ∧ graph.ValuesFit := fun _ _ _ ⟨h, hfit⟩ hrun =>
  (hpass.turns_of_run h hrun).1.preserves hpass h hfit hpass.valuesFit_of_visit

/-! ### Both -/

/-- The operation runs standard passes, one alone or those of a registry. -/
def Operation.RunsPasses : Operation → Prop
  | runPass _ _ _ | runPasses _ _ _ => True
  | _ => False

/-- Runs of passes say nothing that does not fit. -/
theorem Operation.ensures_valuesFit {operation : Operation} (hoperation : operation.RunsPasses) :
    Ensures (fun graph => graph.Coherent ∧ graph.ValuesFit) operation.perform
      fun _ graph => graph.Coherent ∧ graph.ValuesFit := by
  cases operation with
  | runPass pass standard verify => exact ensures_discard (standard.ensures_valuesFit verify)
  | runPasses passes standard verify =>
    exact ensures_discard (ensures_run_passes verify fun pass hpass =>
      (standard pass hpass).ensures_valuesFit verify)
  | _ => exact absurd hoperation not_false

/-- Let every value that is known in a reachable graph fit the shape that is known with it, and let
the value of each constant fit the shape that the constant declares. Then every value that is known
after a successful inference fits its shape, and so does every value that is known after any
successful runs of standard passes that follow. -/
theorem valuesFit_after_inference_and_passes {start known : Graph} {stats : InferStats}
    (hreachable : start.Reachable) (hfit : start.ValuesFit) (hdeclared : start.ConstantsFit)
    (hrun : (Infer.inferGraph .standard).run start = .ok stats known) :
    known.ValuesFit ∧
      ∀ operations : List Operation, (∀ operation ∈ operations, operation.RunsPasses) →
        ∀ final, (operations.forM Operation.perform).run known = .ok ⟨⟩ final → final.ValuesFit := by
  obtain ⟨hknown, hfits⟩ := valuesFit_of_run_inferGraph hreachable.coherent hfit hdeclared hrun
  refine ⟨hfits, fun operations hoperations final hpasses => ?_⟩
  exact (ensures_forM (fun operation hmem => Operation.ensures_valuesFit (hoperations operation hmem)) known
    ⟨⟩ final ⟨hknown, hfits⟩ hpasses).2

/-- Extents of a graph input are taken from its shape by indices in two axes, one of them counted from
the end, and a maximum pooling stands beside. -/
def pickedExtents : Graph :=
  [Operation.addNode
      { opType := "Parameter", attributes := .ofList [("shape", .ints [1, 3, 8])], outputs := 1 },
    .addNode { opType := "ShapeOf", inputs := 1, outputs := 1 },
    .addNode
      { opType := "Const", outputs := 1
        attributes := .ofList [("value", .ints [2, -2]), ("shape", .ints [1, 2])] },
    .addNode
      { opType := "AttributedGather", attributes := .ofList [("axis", .int (-1))], inputs := 2
        outputs := 1 },
    .addNode { opType := "FakeOutput", name := some "picked", inputs := 1, outputs := 1 },
    .addNode
      { opType := "Pooling", inputs := 1, outputs := 1
        attributes := .ofList [("pool_method", .str "max"), ("window", .ints [2])] },
    .annotate (.output ⟨0⟩ 0) (.ofShape [1, 3, 8]),
    .connect (.output ⟨0⟩ 0) (.input ⟨1⟩ 0),
    .connect (.output ⟨1⟩ 0) (.input ⟨3⟩ 0),
    .connect (.output ⟨2⟩ 0) (.input ⟨3⟩ 1),
    .connect (.output ⟨3⟩ 0) (.input ⟨4⟩ 0),
    .connect (.output ⟨0⟩ 0) (.input ⟨5⟩ 0)].foldl
      (fun graph operation => operation.perform.after graph) .empty

/-- All four standard passes run, the one for gathers twice. -/
def canonizeTwice : List Operation :=
  [.runPasses .standard (fun _ => PassRegistry.standard_of_mem) true,
    .runPass .gatherAxis (PassRegistry.standard_of_mem (by simp [PassRegistry.standard])) false]

/-- The two extents have the shape of the indices, and after the passes a second port of the pooling
and a constant for the axis are known as well. -/
theorem valuesFit_after_inference_and_passes_pickedExtents :
    ∃ stats known final, (Infer.inferGraph .standard).run pickedExtents = .ok stats known ∧
      known.outputInfo? (.output ⟨3⟩ 0) = some ⟨some [1, 2], some [8, 3]⟩ ∧ known.ValuesFit ∧
        (canonizeTwice.forM Operation.perform).run known = .ok ⟨⟩ final ∧
          final.outputInfo? (.output ⟨5⟩ 1) = some (.ofShape [1, 3, 7]) ∧ final.ValuesFit := by
  have hnodes : ∀ entry ∈ pickedExtents.nodes.toList,
      (∀ port ∈ entry.2.outputs, port.info = none ∨ port.info = some (.ofShape [1, 3, 8])) ∧
        (entry.2.opType = "Const" → entry.2.declared = ⟨some [1, 2], some [2, -2]⟩) := by
    decide +kernel
  have hentry : ∀ id node, pickedExtents.node? id = some node →
      (id, node) ∈ pickedExtents.nodes.toList :=
    fun id node => (pickedExtents.nodes.get?_eq_some_iff id node).mp
  have hok : (match (Infer.inferGraph .standard).run pickedExtents with
      | .ok _ known => decide (known.outputInfo? (.output ⟨3⟩ 0) = some ⟨some [1, 2], some [8, 3]⟩) &&
        (match (canonizeTwice.forM Operation.perform).run known with
          | .ok _ final => decide (final.outputInfo? (.output ⟨5⟩ 1) = some (.ofShape [1, 3, 7]))
          | .error _ _ => false)
      | .error _ _ => false) = true := by decide +kernel
  have hoperations : ∀ operation ∈ canonizeTwice, operation.RunsPasses := by
    intro operation hmem
    simp only [canonizeTwice, List.mem_cons, List.not_mem_nil, or_false] at hmem
    rcases hmem with rfl | rfl <;> exact trivial
  cases hrun : (Infer.inferGraph .standard).run pickedExtents with
  | error error left =>
    rw [hrun] at hok
    cases hok
  | ok stats known =>
    rw [hrun] at hok
    obtain ⟨hpicked, hok⟩ := Bool.and_eq_true_iff.mp hok
    obtain ⟨hknown, hfinal⟩ := valuesFit_after_inference_and_passes (Graph.reachable_of_operations _)
      (fun id node hn port hport info hinfo => by
        rcases (hnodes _ (hentry id node hn)).1 port hport with hnone | hsome
        · rw [hnone] at hinfo
          cases hinfo
        · rw [hsome] at hinfo
          cases hinfo
          exact TensorInfo.fits_ofShape _)
      (fun id node hn htype => by
        rw [(hnodes _ (hentry id node hn)).2 htype]
        rintro shape value ⟨⟩ ⟨⟩
        rfl) hrun
    cases hpasses : (canonizeTwice.forM Operation.perform).run known with
    | error error left =>
      rw [hpasses] at hok
      cases hok
    | ok value final =>
      rw [hpasses] at hok
      exact ⟨stats, known, final, rfl, of_decide_eq_true hpicked, hknown, hpasses,
        of_decide_eq_true hok, hfinal canonizeTwice hoperations final hpasses⟩

end OpGraph
