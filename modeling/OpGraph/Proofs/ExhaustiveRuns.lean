import OpGraph.Proofs.Pass.MarkerBypass
import OpGraph.Proofs.Pass.Turns

/-!
# Runs of standard passes are exhaustive

A run of a standard pass visits every node that met its conditions at the start, in the order in
which the nodes were inserted, and no node meets them at the end. A visit can fail, but never because
its node still met the conditions afterwards. Which nodes are visited is settled at the start; under
which name a node is counted is not, since an earlier visit may have given it another one.
-/

namespace OpGraph

open Edit

variable {graph result : Graph} {pass : Pass} {id : NodeId} {node : Node} {error : GraphError}

/-! ### Failed visits -/

/-- The error does not say that a match holds after its turn. -/
def GraphError.BeforePostcondition (error : GraphError) : Prop :=
  ∀ pass anchor, error ≠ .passPostcondition pass anchor

theorem beforePostcondition_of_run_resolveMarker (h : graph.Coherent) (hn : graph.node? id = some node)
    (hrun : (resolveMarker ⟨[("fake", id)]⟩).run graph = .error error result) :
    error.BeforePostcondition := by
  intro pass anchor hsame
  subst hsame
  cases hfeed : graph.inputConnection? id 0 with
  | none =>
    rw [run_resolveMarker_of_unfed hn hfeed] at hrun
    cases hrun
  | some feed =>
    obtain ⟨ends, hends, _⟩ :=
      Option.map_eq_some_iff.mp ((h.linked.feed_iff id 0 feed).mp hfeed)
    have hsource : graph.source? feed = some ends.source := by rw [Graph.source?, hends]; rfl
    obtain ⟨_, _, hhalted⟩ := halted_of_run_resolveMarker h hn hfeed hsource hrun
    cases hhalted with
    | taken _ herror _ => cases herror
    | held _ _ _ _ herror _ => cases herror

theorem beforePostcondition_of_run_canonizeGather (h : graph.Coherent)
    (hn : graph.node? id = some node)
    (hrun : (canonizeGather ⟨[("gather", id)]⟩).run graph = .error error result) :
    error.BeforePostcondition := by
  intro pass anchor hsame
  subst hsame
  rw [run_canonizeGather h hn] at hrun
  cases hread : gatherAxis node with
  | error _ =>
    rw [hread] at hrun
    cases hrun
    unfold gatherAxis at hread
    split at hread <;> cases hread
  | ok axis =>
    rw [hread] at hrun
    cases hcheck : checkAxisInput id graph with
    | error _ =>
      rw [hcheck] at hrun
      cases hrun
      unfold checkAxisInput at hcheck
      split at hcheck <;> cases hcheck
    | ok _ =>
      rw [hcheck] at hrun
      cases hrun

/-- A visit of a standard pass that fails is a rewrite that fails. -/
theorem Pass.Standard.beforePostcondition_of_visit (hpass : pass.Standard) (h : graph.Coherent)
    (hn : graph.node? id = some node) (hrun : (pass.visit id).run graph = .error error result) :
    error.BeforePostcondition := by
  have hexists : (graph.node? id).isSome = true := by rw [hn]; rfl
  obtain ⟨builtIn, hmem, hvisit⟩ := hpass.exists_visit_eq
  rw [hvisit] at hrun
  simp only [PassRegistry.standard, List.mem_cons, List.not_mem_nil, or_false] at hmem
  rcases hmem with rfl | rfl | rfl | rfl
  · exact beforePostcondition_of_run_resolveMarker h hn hrun
  · exact (failsOnly_canonizeMaxPool (E := fun _ => False) graph error result ⟨h, hexists⟩ hrun).elim
  · exact (failsOnly_canonizeAvgPool (E := fun _ => False) graph error result ⟨h, hexists⟩ hrun).elim
  · exact beforePostcondition_of_run_canonizeGather h hn hrun

/-- A run of a standard pass fails as one of its visits does. -/
theorem Pass.Standard.beforePostcondition_of_run (hpass : pass.Standard) (h : graph.Coherent)
    {verify : Bool} (hrun : (pass.run verify).run graph = .error error result) :
    error.BeforePostcondition := by
  obtain ⟨pattern, _, hsingle, _⟩ := hpass.exists_isSingle
  refine hpass.failsOnly_run (E := GraphError.BeforePostcondition) hsingle verify
    (fun id bound _ graph error result hgraph hvisit => ?_) graph error result ⟨h, .refl graph⟩ hrun
  rw [← Pass.matchOf_of_isSingle hsingle] at hvisit
  exact hpass.beforePostcondition_of_visit hgraph.1.coherent hgraph.2 hvisit

/-! ### Runs -/

/-- On a reachable graph a standard pass never fails because a match holds after its turn. A run that
succeeds leaves no node behind that meets the conditions of the pass. It finds as many matches as there
were such nodes at the start, none of them becomes stale, and all of them are applied, in the order in
which the nodes were inserted and under the names that they had when their turn came. -/
theorem exhaustive_of_run (hreachable : graph.Reachable) (hpass : pass.Standard) (verify : Bool) :
    (∀ error result, (pass.run verify).run graph = .error error result →
      ∀ name anchor, error ≠ .passPostcondition name anchor) ∧
    ∀ stats result, (pass.run verify).run graph = .ok stats result →
      (∀ id node, result.node? id = some node → pass.accepts node = false) ∧
      pass.pattern.findAll result = [] ∧
      stats.stale = 0 ∧ stats.applied = (pass.targets graph).length ∧
      stats.found = (pass.targets graph).length ∧
      pass.Turns (pass.targets graph) stats.anchors graph result := by
  have h := hreachable.coherent
  refine ⟨fun error result hrun => hpass.beforePostcondition_of_run h hrun,
    fun stats result hrun => ?_⟩
  obtain ⟨_, _, hclear⟩ := hpass.cleared_of_run h hrun
  obtain ⟨hturns, hstats⟩ := hpass.turns_of_run h hrun
  obtain ⟨pattern, _, hsingle, _⟩ := hpass.exists_isSingle
  refine ⟨fun id node hn => ?_, hclear, by rw [hstats], by rw [hstats], by rw [hstats], hturns⟩
  rw [Pass.accepts_of_isSingle hsingle]
  exact hclear.accepts_eq_false hsingle hn

/-- A marker that is fed by a marker, which was inserted later and is fed by an activation. -/
def chainedMarkers : Graph :=
  [Operation.addNode { opType := "Relu", name := some "relu", outputs := 1 },
    .addNode { opType := "FakeOutput", name := some "last", inputs := 1, outputs := 1 },
    .addNode { opType := "FakeOutput", name := some "first", inputs := 1, outputs := 1 },
    .addNode { opType := "Result", name := some "reader", inputs := 1 },
    .connect (.output ⟨0⟩ 0) (.input ⟨2⟩ 0),
    .connect (.output ⟨2⟩ 0) (.input ⟨1⟩ 0),
    .connect (.output ⟨1⟩ 0) (.input ⟨3⟩ 0)].foldl
      (fun graph operation => operation.perform.after graph) .empty

/-- Both markers have their turn. When that of the second one comes, it has the name of the first. -/
theorem exhaustive_of_run_chainedMarkers :
    ∃ stats result, (Pass.outputMarkers.run true).run chainedMarkers = .ok stats result ∧
      (∀ id node, result.node? id = some node → Pass.outputMarkers.accepts node = false) ∧
      stats.stale = 0 ∧ stats.applied = 2 ∧ stats.found = 2 ∧
      Pass.outputMarkers.Turns [⟨1⟩, ⟨2⟩] ["last", "last"] chainedMarkers result := by
  have hreachable : chainedMarkers.Reachable := Graph.reachable_of_operations _
  have hstandard : Pass.outputMarkers.Standard :=
    PassRegistry.standard_of_mem (by simp [PassRegistry.standard])
  obtain ⟨stats, result, hrun, hanchors⟩ : ∃ stats result,
      (Pass.outputMarkers.run true).run chainedMarkers = .ok stats result ∧
        stats.anchors = ["last", "last"] := ⟨_, _, rfl, by decide +kernel⟩
  have htargets : Pass.outputMarkers.targets chainedMarkers = [⟨1⟩, ⟨2⟩] := by decide +kernel
  obtain ⟨hnone, _, hstale, happlied, hfound, hturns⟩ :=
    (exhaustive_of_run hreachable hstandard true).2 stats result hrun
  rw [htargets] at happlied hfound hturns
  rw [hanchors] at hturns
  exact ⟨stats, result, hrun, hnone, hstale, happlied, hfound, hturns⟩

end OpGraph
