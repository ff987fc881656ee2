import OpGraph.Proofs.Infer.Visited
import OpGraph.Proofs.Reachable

/-!
# Inference in any order

A reachable graph without a cycle has an order for inference, and may have many. Whatever functions
are registered, they all lead to the same graph or none leads to an end.
-/

namespace OpGraph.Infer

open OpGraph.Graph

variable {start : Graph}

/-- For every reachable graph and whatever functions are registered: if visits of all nodes in one
order that puts sources first succeed, they succeed in any other one with the same result, which is
that of an inference of the whole graph. After a successful inference something is said about every
output and what was said before is said still, every node was counted once, and a second inference
changes nothing and counts just the nodes without outputs. -/
theorem inferGraph_in_any_order (hreachable : start.Reachable) (registry : InferRegistry) :
    (start.Acyclic ↔ ∃ order, start.IsOrder order) ∧
    (∀ order other answers final, start.IsOrder order → start.IsOrder other →
      (order.mapM (inferNode registry)).run start = .ok answers final →
        (∃ found, (other.mapM (inferNode registry)).run start = .ok found final) ∧
          ∃ stats, (inferGraph registry).run start = .ok stats final) ∧
    ∀ stats final, (inferGraph registry).run start = .ok stats final →
      (∀ order, start.IsOrder order →
        ∃ answers, (order.mapM (inferNode registry)).run start = .ok answers final) ∧
      (∀ id node, final.node? id = some node → ∀ port ∈ node.outputs, port.info.isSome = true) ∧
      (∀ port info, start.outputInfo? port = some info → final.outputInfo? port = some info) ∧
      stats.inferred + stats.skipped = start.nodes.size ∧
      (∀ id node, final.node? id = some node →
        (inferNode registry id).run final = .ok node.outputs.isEmpty final) ∧
      ∃ again, (inferGraph registry).run final = .ok again final ∧
        again.inferred = final.nodes.values.countP fun node => node.outputs.isEmpty := by
  have hcoherent := hreachable.coherent
  refine ⟨⟨fun hacyclic => ?_, fun ⟨_, horder⟩ => horder.acyclic⟩,
    fun order other answers final horder hother hrun => ?_, fun stats final hrun => ?_⟩
  · obtain ⟨order, horder⟩ := hcoherent.exists_order hacyclic
    exact ⟨order, hcoherent.isOrder_of_topologicalOrder horder⟩
  · have hvisited := visited_of_run_mapM hcoherent horder hrun
    exact ⟨⟨_, hvisited.run_of_isOrder horder hother⟩,
      run_inferGraph_of_visited hcoherent horder hvisited⟩
  · obtain ⟨order, horder, hvisited, hcount⟩ := visited_of_run_inferGraph hcoherent hrun
    exact ⟨fun other hother => ⟨_, hvisited.run_of_isOrder horder hother⟩,
      fun _ _ hn _ hport => hvisited.isSome_info horder hn hport,
      fun _ _ hinfo => hvisited.outputInfo?_of_some hinfo, hcount,
      fun _ _ hn => hvisited.run_again horder hn, run_inferGraph_again horder hvisited⟩

/-- A graph input of which the shape is known already, an activation and a graph output. -/
def knownInput : Graph :=
  [Operation.addNode { opType := "Parameter", outputs := 1 },
    .addNode { opType := "Relu", inputs := 1, outputs := 1 },
    .addNode { opType := "Result", inputs := 1 },
    .connect (.output ⟨0⟩ 0) (.input ⟨1⟩ 0),
    .connect (.output ⟨1⟩ 0) (.input ⟨2⟩ 0),
    .annotate (.output ⟨0⟩ 0) (.ofShape [4])].foldl (fun graph operation =>
      operation.perform.after graph) .empty

/-- Inference skips the input of which everything is known. The second time it skips the
activation as well. -/
theorem inferGraph_in_any_order_knownInput :
    knownInput.Acyclic ∧ ∃ final, (inferGraph .standard).run knownInput = .ok ⟨2, 1⟩ final ∧
      final.outputInfo? (.output ⟨1⟩ 0) = some (.ofShape [4]) ∧
        ∃ again, (inferGraph .standard).run final = .ok again final ∧ again.inferred = 1 := by
  have hreachable : knownInput.Reachable := reachable_of_operations _
  obtain ⟨hacyclic, _, hlast⟩ := inferGraph_in_any_order hreachable .standard
  have hlisted : knownInput.topologicalOrder = .ok [⟨0⟩, ⟨1⟩, ⟨2⟩] := by decide +kernel
  have horder := hreachable.coherent.isOrder_of_topologicalOrder hlisted
  have hok : (match (inferGraph .standard).run knownInput with
      | .ok stats final => decide (stats = ⟨2, 1⟩ ∧
          final.outputInfo? (.output ⟨1⟩ 0) = some (.ofShape [4]) ∧
            (final.nodes.values.countP fun node => node.outputs.isEmpty) = 1)
      | .error _ _ => false) = true := by decide +kernel
  cases hrun : (inferGraph .standard).run knownInput with
  | error error left =>
    rw [hrun] at hok
    cases hok
  | ok stats final =>
    rw [hrun] at hok
    obtain ⟨rfl, hinfo, hcount⟩ := of_decide_eq_true hok
    obtain ⟨_, _, _, _, _, again, hagain, hinferred⟩ := hlast _ _ hrun
    exact ⟨hacyclic.mpr ⟨_, horder⟩, final, rfl, hinfo, again, hagain, hinferred.trans hcount⟩

end OpGraph.Infer
