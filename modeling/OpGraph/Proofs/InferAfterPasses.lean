import OpGraph.Proofs.Pass.GatherSettled
import OpGraph.Proofs.Pass.Hidden
import OpGraph.Proofs.Pass.MarkerSettled
import OpGraph.Proofs.Pass.PoolingSettled
import OpGraph.Proofs.Source.Imported

/-!
# Inference before and after the passes

Inference may be left until the passes are done. The passes do not look at what is known about
the nodes of an imported graph, so they do the same to the graph before inference, and what they
leave behind is settled. Inference of a settled graph of which a part is hidden brings the
hidden part back.
-/

namespace OpGraph

open Edit

/-! ### Passes -/

/-- A standard pass leaves a settled graph behind with each match that holds. -/
theorem Pass.Standard.ensures_settled_apply {pass : Pass} (h : pass.Standard) (found : Match) :
    Ensures (fun graph => graph.Settled ∧ pass.pattern.stillMatches graph found = true)
      (pass.apply found) fun _ => Graph.Settled := by
  obtain ⟨builtIn, hmem, hpattern, happly⟩ := h.exists_mem
  rw [hpattern, happly]
  simp only [PassRegistry.standard, List.mem_cons, List.not_mem_nil, or_false] at hmem
  rcases hmem with rfl | rfl | rfl | rfl
  · exact ensures_settled_resolveMarker found
  · exact ensures_settled_canonizeMaxPool found
  · exact ensures_settled_canonizeAvgPool found
  · exact ensures_settled_canonizeGather found

/-- A run of a standard pass leaves a settled graph behind. -/
theorem Pass.Standard.ensures_settled {pass : Pass} (h : pass.Standard) (verify : Bool) :
    Ensures Graph.Settled (pass.run verify) fun _ => Graph.Settled :=
  ensures_run_pass verify h.ensures_settled_apply

/-! ### Both orders -/

/-- Where inference succeeds on an imported graph and the chosen passes on what it leaves behind,
the same passes succeed on the imported graph itself, and inference takes what they leave behind
to the same graph in the end. -/
theorem inference_commutes_with_passes {model : SourceModel} {imported known final : Graph}
    {inferStats : InferStats} {passStats : PassStats} (chosen : String → Bool) (verify : Bool)
    (himport : model.toGraph .standard = .ok imported)
    (hinfer : (Infer.inferGraph .standard).run imported = .ok inferStats known)
    (hpasses : ((PassRegistry.choose chosen).run verify).run known = .ok passStats final) :
    ∃ canonical laterStats,
      ((PassRegistry.choose chosen).run verify).run imported = .ok passStats canonical ∧
        (Infer.inferGraph .standard).run canonical = .ok laterStats final := by
  obtain ⟨hsettled, hhidden⟩ := SourceModel.settled_of_toGraph himport hinfer
  have hbound : imported.nextNode ≤ known.nextNode := by
    rw [← hhidden]
    exact Nat.le_refl _
  have hblind : Blind imported.nextNode ((PassRegistry.choose chosen).run verify) :=
    blind_run_passes verify fun _ => PassRegistry.standard_of_choose
  obtain ⟨hcanonical, _⟩ := hblind known passStats final hbound hpasses
  rw [hhidden] at hcanonical
  have hfinal : final.Settled := ensures_run_passes verify
    (fun _ hpass => (PassRegistry.standard_of_choose hpass).ensures_settled verify) known passStats
    final hsettled hpasses
  obtain ⟨laterStats, hlater⟩ := hfinal.run_inferGraph fun id => decide (id.index < imported.nextNode)
  exact ⟨final.hideBelow imported.nextNode, laterStats, hcanonical, hlater⟩

/-- A gather along an attribute of what a maximum pooling delivers, requested as an output. -/
def SourceModel.pooledGather : SourceModel where
  format := .onnx
  inputs := [("x", [1, 2, 4]), ("i", [1])]
  operators := [
    { name := "p", operator := "MaxPool", record := .ofList [("kernel_shape", .ints [2])],
      inputs := 1, outputs := 1 },
    { name := "g", operator := "Gather", record := .ofList [("axis", .int 2)],
      inputs := 2, outputs := 1 }]
  edges := [⟨"x", 0, "p", 0⟩, ⟨"p", 0, "g", 0⟩, ⟨"i", 0, "g", 1⟩]
  outputs := [⟨"y", "g", 0⟩]

/-- In either order three passes find something to do here, and the outcome is the same. -/
theorem inference_commutes_with_passes_pooledGather :
    ∃ imported known final canonical inferStats passStats laterStats,
      SourceModel.pooledGather.toGraph .standard = .ok imported ∧
        (Infer.inferGraph .standard).run imported = .ok inferStats known ∧
        ((PassRegistry.choose fun _ => true).run true).run known = .ok passStats final ∧
        passStats.applied = 3 ∧
        ((PassRegistry.choose fun _ => true).run true).run imported = .ok passStats canonical ∧
        (Infer.inferGraph .standard).run canonical = .ok laterStats final := by
  have hok : ((SourceModel.pooledGather.toGraph .standard).toOption.bind fun imported =>
      (Infer.inferGraph .standard >>= fun _ =>
        (PassRegistry.choose fun _ => true).run true).run' imported).map (·.applied) = some 3 := by
    decide +kernel
  cases himport : SourceModel.pooledGather.toGraph .standard with
  | error error =>
    rw [himport] at hok
    cases hok
  | ok imported =>
    rw [himport] at hok
    obtain ⟨passStats, hpassStats, happlied⟩ := Option.map_eq_some_iff.mp hok
    change EStateM.run' _ imported = some passStats at hpassStats
    unfold EStateM.run' at hpassStats
    split at hpassStats
    · rename_i value final hrun
      cases hpassStats
      obtain ⟨inferStats, known, hinfer, hpasses⟩ := run_bind_eq_ok.mp hrun
      obtain ⟨canonical, laterStats, hcanonical, hlater⟩ :=
        inference_commutes_with_passes (fun _ => true) true himport hinfer hpasses
      exact ⟨imported, known, final, canonical, inferStats, passStats, laterStats, rfl, hinfer,
        hpasses, happlied, hcanonical, hlater⟩
    · cases hpassStats

end OpGraph
