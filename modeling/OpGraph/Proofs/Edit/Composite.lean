import OpGraph.Infer.Run
import OpGraph.Pass.Standard
import OpGraph.Proofs.Edit.Operation

/-!
# Edits that add

Inference, terminals and the passes for poolings and gathers add nodes, ports, connections and
annotations and change types and attributes of nodes, but take no node or connection away. What
the single additions keep these edits keep.
-/

namespace OpGraph.Edit

/-- The property is kept by every edit that only adds. -/
structure Additions (P : Graph → Prop) : Prop where
  /-- A node is added that is no marker. -/
  addNode : ∀ desc : NodeDesc, desc.opType ≠ "FakeOutput" → Keeps P (addNode desc)
  /-- An input port is added. -/
  addInputPort : ∀ id, Keeps P (addInputPort id)
  /-- An output port is added. -/
  addOutputPort : ∀ id, Keeps P (addOutputPort id)
  /-- A connection is added. -/
  connect : ∀ source destination, Keeps P (connect source destination)
  /-- An annotation is added. -/
  annotate : ∀ port info, Keeps P (annotate port info)
  /-- Attributes are put on the record of removed ones. -/
  removeAttributes : ∀ id names, Keeps P (removeAttributes id names)

namespace Additions

variable {P : Graph → Prop} (h : Additions P) {found : Match} {id : NodeId}
include h

theorem inferNode (registry : InferRegistry) : Keeps P (Infer.inferNode registry id) :=
  keeps_bind (keeps_check _) fun node => by
    by_cases hannotated : Infer.isAnnotated node = true
    · rw [if_pos hannotated]
      exact keeps_pure false
    · rw [if_neg hannotated]
      refine keeps_bind (keeps_check _) fun outputs => keeps_bind (keeps_forM ?_) fun _ =>
        keeps_pure true
      rintro ⟨info, index⟩ _
      exact h.annotate _ info

theorem inferAll (registry : InferRegistry) (ids : List NodeId) (stats : InferStats) :
    Keeps P (Infer.inferAll registry ids stats) := by
  induction ids generalizing stats with
  | nil => exact keeps_pure stats
  | cons id rest ih =>
    refine keeps_bind (h.inferNode registry) fun inferred => ?_
    cases inferred
    · exact ih _
    · exact ih _

theorem inferGraph (registry : InferRegistry) : Keeps P (Infer.inferGraph registry) :=
  keeps_bind (keeps_check _) fun order => h.inferAll registry order ⟨0, 0⟩

theorem terminatePorts (ports : List Nat) : Keeps P (terminatePorts id ports) :=
  keeps_bind (keeps_check _) fun _ =>
    keeps_bind (keeps_forM fun _ _ => keeps_check _) fun _ => keeps_mapM fun _ _ =>
      keeps_bind (h.addNode _ (by simp [terminalDesc])) fun _ =>
        keeps_bind (keeps_discard (h.connect _ _)) fun _ => keeps_pure _

theorem terminate : Keeps P (terminate id) :=
  keeps_bind (keeps_check _) fun node => h.terminatePorts node.disconnectedOutputs

theorem addIndicesPort : Keeps P (addIndicesPort id) :=
  keeps_get_bind fun graph hgraph => by
    refine keeps_bind (h.addOutputPort id) (fun indices => ?_) graph hgraph
    cases graph.outputInfo? (.output id 0) with
    | none => exact keeps_pure ()
    | some info => exact h.annotate _ info

theorem canonizeMaxPool
    (htype : ∀ id, found.require "pool" = .ok id → Keeps P (setOpType id "MaxPool")) :
    Keeps P (canonizeMaxPool found) :=
  keeps_ofExcept_bind fun id hid => keeps_bind (keeps_check _) fun node => by
    have hrest : Keeps P (do
        setOpType id "MaxPool"
        Edit.removeAttributes id ["pool_method", "exclude_pad"]
        discard (Edit.terminate id)) :=
      keeps_bind (htype id hid) fun _ =>
        keeps_bind (h.removeAttributes _ _) fun _ => keeps_discard h.terminate
    by_cases hports : node.outputs.length < 2
    · rw [if_pos hports]
      exact keeps_bind h.addIndicesPort fun _ => hrest
    · rw [if_neg hports]
      exact hrest

theorem canonizeAvgPool
    (htype : ∀ id, found.require "pool" = .ok id → Keeps P (setOpType id "AvgPool")) :
    Keeps P (canonizeAvgPool found) :=
  keeps_ofExcept_bind fun id hid => keeps_bind (htype id hid) fun _ =>
    keeps_bind (h.removeAttributes _ _) fun _ => keeps_discard h.terminate

theorem canonizeGather
    (htype : ∀ id, found.require "gather" = .ok id → Keeps P (setOpType id "Gather")) :
    Keeps P (canonizeGather found) :=
  keeps_ofExcept_bind fun id hid => keeps_bind (keeps_check _) fun _ =>
    keeps_bind (keeps_ofExcept _) fun _ => keeps_bind (keeps_check _) fun _ =>
      keeps_bind (h.addNode _ (by simp [axisDesc])) fun _ =>
        keeps_bind (h.annotate _ _) fun _ =>
          keeps_bind (keeps_forM fun _ _ => keeps_discard (h.addInputPort _)) fun _ =>
            keeps_bind (keeps_discard (h.connect _ _)) fun _ =>
              keeps_bind (h.removeAttributes _ _) fun _ => htype id hid

end Additions

end OpGraph.Edit
