import OpGraph.Pass.PoolingMethod
import OpGraph.Proofs.Edit.Changes

/-!
# What a pooling pass makes of a node

Terminals apart, the passes for poolings change one node and nothing else. The change is written
here as a function on nodes: a maximum pooling gets a second output port where it lacks one, and
every pooling loses the attributes that its type stands for now. No connection is touched.
-/

namespace OpGraph

open Edit

variable {graph result : Graph} {id : NodeId} {node : Node} {opType : String} {names : List String}

namespace Node

/-- The node with one more output port, of which is known what is known of the first one. -/
def withIndices (node : Node) : Node :=
  { node with
    outputs := node.outputs ++ [⟨node.outputs.length, [], node.outputs[0]?.bind (·.info)⟩] }

/-- The node as a pooling of a method. -/
def ofMethod (opType : String) (names : List String) (node : Node) : Node :=
  { node with opType, attributes := node.attributes.eraseAll names }

/-- The node as a maximum pooling. -/
def toMaxPool (node : Node) : Node :=
  (if node.outputs.length < 2 then node.withIndices else node).ofMethod "MaxPool"
    ["pool_method", "exclude_pad"]

/-- The node as an average pooling. -/
def toAvgPool (node : Node) : Node := node.ofMethod "AvgPool" ["pool_method"]

namespace Neutral

/-- One neutral change after another is neutral. -/
theorem comp {f g : Node → Node} (hg : Neutral g) (hf : Neutral f) :
    Neutral fun node => g (f node) where
  name node := (hg.name _).trans (hf.name node)
  feed node index := (hg.feed _ index).trans (hf.feed node index)
  listed node index := (hg.listed _ index).trans (hf.listed node index)
  indexed node h := hg.indexed _ (hf.indexed node h)

/-- A neutral change that is made to some nodes only is neutral. -/
theorem onlyIf {p : Node → Prop} [DecidablePred p] {f : Node → Node} (hf : Neutral f) :
    Neutral fun node => if p node then f node else node where
  name node := by
    split
    · exact hf.name node
    · rfl
  feed node index := by
    split
    · exact hf.feed node index
    · rfl
  listed node index := by
    split
    · exact hf.listed node index
    · rfl
  indexed node h := by
    split
    · exact hf.indexed node h
    · exact h

theorem withIndices : Neutral Node.withIndices where
  name _ := rfl
  feed _ _ := rfl
  listed node index := (appendOutput _).listed node index
  indexed node h := (appendOutput _).indexed node h

theorem ofMethod (opType : String) (names : List String) : Neutral (Node.ofMethod opType names) :=
  (setOpType opType).comp (attributes (·.eraseAll names))

theorem toMaxPool : Neutral Node.toMaxPool :=
  (ofMethod "MaxPool" ["pool_method", "exclude_pad"]).comp withIndices.onlyIf

theorem toAvgPool : Neutral Node.toAvgPool := ofMethod "AvgPool" ["pool_method"]

end Neutral

end Node

/-! ### Edits -/

/-- The port for the positions can be added to every node. -/
theorem run_addIndicesPort (hn : graph.node? id = some node) :
    (addIndicesPort id).run graph = .ok () (graph.modifyNode id Node.withIndices) := by
  have hadd : (addOutputPort id).run graph =
      .ok node.outputs.length (graph.modifyNode id withOutput) :=
    run_addOutputPort_eq_ok.mpr ⟨node, hn, rfl, rfl⟩
  have hknown : graph.outputInfo? (.output id 0) = node.outputs[0]?.bind (·.info) := by
    simp [Graph.outputInfo?, Graph.outputPort?, PortRef.output, PortRef.isOutput, hn]
  refine run_bind_eq_ok.mpr ⟨graph, graph, rfl, run_bind_eq_ok.mpr ⟨_, _, hadd, ?_⟩⟩
  rw [hknown]
  cases hinfo : node.outputs[0]?.bind (·.info) with
  | none =>
    refine congrArg (EStateM.Result.ok ()) (Graph.modifyNode_congr fun own hown => ?_)
    rw [hn, Option.some.injEq] at hown
    subst hown
    rw [withOutput, Node.withIndices, hinfo]
  | some info =>
    have hnow : (graph.modifyNode id withOutput).node? id = some (withOutput node) := by
      rw [Graph.node?_modifyNode, if_pos rfl, hn]
      rfl
    refine run_annotate_eq_ok.mpr ⟨rfl, ⟨_, hnow, ?_⟩, ?_, ?_⟩
    · simp [PortRef.output, Node.portCount, withOutput]
    · simp [Graph.outputInfo?, Graph.outputPort?, PortRef.output, hnow, withOutput]
    · refine ((graph.modifyNode_modifyNode id _ _).trans
        (Graph.modifyNode_congr fun own hown => ?_)).symm
      rw [hn, Option.some.injEq] at hown
      subst hown
      simp [withOutput, Node.withIndices, PortRef.output, hinfo, List.modify_eq_take_drop]

/-- A pooling of a method is the changed node with its open output ports terminated. -/
theorem run_terminate_of_run_setMethod {value : Unit} (hrun : (do
      setOpType id opType
      removeAttributes id names
      discard (terminate id)).run graph = .ok value result) :
    ∃ terminals,
      (terminate id).run (graph.modifyNode id (Node.ofMethod opType names)) = .ok terminals result := by
  obtain ⟨_, _, htype, hrun⟩ := run_bind_eq_ok.mp hrun
  obtain ⟨_, rfl⟩ := run_setOpType_eq_ok.mp htype
  obtain ⟨_, _, hattributes, hrun⟩ := run_bind_eq_ok.mp hrun
  obtain ⟨_, rfl⟩ := run_removeAttributes_eq_ok.mp hattributes
  rw [graph.modifyNode_modifyNode] at hrun
  exact run_discard_eq_ok.mp hrun

/-- A maximum pooling is the changed node with its open output ports terminated. -/
theorem run_terminate_of_run_canonizeMaxPool {value : Unit}
    (hrun : (canonizeMaxPool ⟨[("pool", id)]⟩).run graph = .ok value result) :
    ∃ terminals, (terminate id).run (graph.modifyNode id Node.toMaxPool) = .ok terminals result := by
  obtain ⟨own, hown, hrun⟩ := run_ofExcept_bind_eq_ok.mp hrun
  cases hown
  obtain ⟨node, hn, hrun⟩ := run_check_bind_eq_ok.mp hrun
  rw [Graph.requireNode_eq_ok_iff] at hn
  by_cases hports : node.outputs.length < 2
  · rw [if_pos hports] at hrun
    obtain ⟨_, _, hadd, hrun⟩ := run_bind_eq_ok.mp hrun
    cases (run_addIndicesPort hn).symm.trans hadd
    have hterminated := run_terminate_of_run_setMethod hrun
    rw [graph.modifyNode_modifyNode] at hterminated
    rwa [Graph.modifyNode_congr (g := Node.toMaxPool) fun own hown => by
      rw [hn, Option.some.injEq] at hown
      rw [← hown, Node.toMaxPool, if_pos hports]] at hterminated
  · rw [if_neg hports] at hrun
    have hterminated := run_terminate_of_run_setMethod hrun
    rwa [Graph.modifyNode_congr (g := Node.toMaxPool) fun own hown => by
      rw [hn, Option.some.injEq] at hown
      rw [← hown, Node.toMaxPool, if_neg hports]] at hterminated

/-- An average pooling is the changed node with its open output ports terminated. -/
theorem run_terminate_of_run_canonizeAvgPool {value : Unit}
    (hrun : (canonizeAvgPool ⟨[("pool", id)]⟩).run graph = .ok value result) :
    ∃ terminals, (terminate id).run (graph.modifyNode id Node.toAvgPool) = .ok terminals result := by
  obtain ⟨own, hown, hrun⟩ := run_ofExcept_bind_eq_ok.mp hrun
  cases hown
  exact run_terminate_of_run_setMethod hrun

end OpGraph
