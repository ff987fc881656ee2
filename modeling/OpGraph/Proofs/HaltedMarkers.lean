import OpGraph.Proofs.Pass.MarkerBypass
import OpGraph.Proofs.Reachable

/-!
# Markers that stay unresolved

The resolution of a marker can fail, and then the graph is not always what it was. Without a producer
nothing has happened yet. A bypass that comes to a halt has unplugged the marker before, and if the
halt is at the removal, two nodes have other names besides. These are the only failures, and it can be
told from the graph beforehand which of them will occur.
-/

namespace OpGraph

open Edit

variable {graph result : Graph} {id : NodeId} {marker : Node} {error : GraphError}

/-- A name that was handed over had a free temporary name beside it, and nothing was connected to the
marker. -/
theorem free_of_run_handName {name : String} {producer : NodeId} {value : Unit} (h : graph.Coherent)
    (hn : graph.node? id = some marker) (hname : marker.name = name)
    (hrun : (handName id name producer).run graph = .ok value result) :
    graph.idOf? (temporaryName name) = none ∧ marker.connectionIds = [] := by
  subst hname
  obtain ⟨_, freed, hfree, hrun⟩ := run_bind_eq_ok.mp hrun
  obtain ⟨_, given, hgive, hrun⟩ := run_bind_eq_ok.mp hrun
  obtain ⟨now, hremove⟩ := run_discard_eq_ok.mp hrun
  obtain ⟨hnow, hnil, _⟩ := run_removeNode_strict_eq_ok.mp hremove
  obtain ⟨hfreed, hslots, hsources⟩ := kept_of_run_renameNode h hfree
  obtain ⟨hgiven, hslots', hsources'⟩ := kept_of_run_renameNode hfreed hgive
  refine ⟨free_of_run_renameNode hn (temporaryName_ne marker.name) hfree, List.eq_nil_iff_forall_not_mem.mpr fun connection hmem => ?_⟩
  have hmem' : connection ∈ now.connectionIds := by
    refine (hgiven.linked.mem_connectionIds hnow).mpr ?_
    refine ((h.linked.mem_connectionIds hn).mp hmem).imp (fun ⟨index, hend⟩ => ⟨index, ?_⟩)
      fun ⟨index, hstart⟩ => ⟨index, ?_⟩
    · rw [← hgiven.linked.feed_iff, hslots', hslots, h.linked.feed_iff, hend]
    · rw [hsources', hsources, hstart]
  rw [hnil] at hmem'
  exact List.not_mem_nil hmem'

/-- A marker cannot be resolved exactly if nothing feeds it or if it is to be bypassed, since its
producer uses one output, and its temporary name is taken or something holds it. -/
theorem resolution_fails_iff (h : graph.Coherent) (hn : graph.node? id = some marker) :
    (∃ error result, (resolveMarker ⟨[("fake", id)]⟩).run graph = .error error result) ↔
      graph.inputConnection? id 0 = none ∨
        ∃ feed source producer, graph.inputConnection? id 0 = some feed ∧
          graph.source? feed = some source ∧ graph.node? source.node = some producer ∧
            producer.usedOutputs = 1 ∧
              ((graph.idOf? (temporaryName marker.name)).isSome = true ∨ graph.Held id feed source) := by
  constructor
  · rintro ⟨error, result, hrun⟩
    cases hfeed : graph.inputConnection? id 0 with
    | none => exact .inl rfl
    | some feed =>
      obtain ⟨ends, hends, _⟩ :=
        Option.map_eq_some_iff.mp ((h.linked.feed_iff id 0 feed).mp hfeed)
      have hsource : graph.source? feed = some ends.source := by rw [Graph.source?, hends]; rfl
      obtain ⟨⟨producer, hproducer, hsingle⟩, hunplugged, hhalted⟩ :=
        halted_of_run_resolveMarker h hn hfeed hsource hrun
      refine .inr ⟨feed, ends.source, producer, rfl, hsource, hproducer, hsingle, ?_⟩
      cases hhalted with
      | taken htaken _ _ => exact .inl htaken
      | held now _ hnow hattached _ _ =>
        exact .inr ((hunplugged.attached_iff_held h hfeed hsource hnow).mp hattached)
  · rintro (hunfed | ⟨feed, source, producer, hfeed, hsource, hproducer, hsingle, hblocked⟩)
    · exact ⟨_, _, run_resolveMarker_of_unfed hn hunfed⟩
    · obtain ⟨ends, hends, rfl⟩ := Option.map_eq_some_iff.mp hsource
      obtain ⟨middle, hunplugged, hbare, hsame⟩ := run_bypassMarker h hn hends
      obtain ⟨own, hown, hname⟩ := Option.map_eq_some_iff.mp
        ((hbare id).trans (Graph.bare?_of_node? hn))
      rw [run_resolveMarker_of_fed hn hfeed hends hproducer, if_pos hsingle, hsame]
      cases hrun : (handName id marker.name ends.source.node).run middle with
      | error error result => exact ⟨error, result, rfl⟩
      | ok value result =>
        obtain ⟨hfree, hnil⟩ := free_of_run_handName hunplugged.coherent hown
          (congrArg (·.name) hname) hrun
        rcases hblocked with htaken | hheld
        · rw [h.idOf?_congr hunplugged.coherent hbare] at hfree
          rw [hfree] at htaken
          cases htaken
        · exact absurd hnil ((hunplugged.attached_iff_held h hfeed hsource hown).mpr hheld)

/-- If a marker of a reachable graph cannot be resolved, the graph is what it was exactly if nothing
feeds the marker. Otherwise the marker has been unplugged: its feed is cut off, and its consumers are
fed by its source. Then either its temporary name is taken and all names are what they were, or
something holds the marker and it has the temporary name already, while its producer has its own. -/
theorem unchanged_of_failed_resolution_iff (hreachable : graph.Reachable)
    (hn : graph.node? id = some marker)
    (hrun : (resolveMarker ⟨[("fake", id)]⟩).run graph = .error error result) :
    (result = graph ↔ graph.inputConnection? id 0 = none) ∧
      (graph.inputConnection? id 0 = none →
        error = .validationFailed (.markerWithoutProducer marker.name)) ∧
      ∀ feed source, graph.inputConnection? id 0 = some feed → graph.source? feed = some source →
        Unplugged graph id feed source result ∧ Halted graph id marker.name source.node error result ∧
          (graph.idOf? (temporaryName marker.name) = none → graph.Held id feed source) := by
  have h := hreachable.coherent
  have hunfed : graph.inputConnection? id 0 = none →
      error = .validationFailed (.markerWithoutProducer marker.name) ∧ result = graph := by
    intro hnone
    rw [run_resolveMarker_of_unfed hn hnone] at hrun
    cases hrun
    exact ⟨rfl, rfl⟩
  have hfed : ∀ feed source, graph.inputConnection? id 0 = some feed →
      graph.source? feed = some source →
        Unplugged graph id feed source result ∧ Halted graph id marker.name source.node error result ∧
          (graph.idOf? (temporaryName marker.name) = none → graph.Held id feed source) := by
    intro feed source hfeed hsource
    obtain ⟨_, hunplugged, hhalted⟩ := halted_of_run_resolveMarker h hn hfeed hsource hrun
    refine ⟨hunplugged, hhalted, fun hfree => ?_⟩
    cases hhalted with
    | taken htaken _ _ =>
      rw [hfree] at htaken
      cases htaken
    | held now _ hnow hattached _ _ =>
      exact (hunplugged.attached_iff_held h hfeed hsource hnow).mp hattached
  refine ⟨⟨fun hsame => ?_, fun hnone => (hunfed hnone).2⟩, fun hnone => (hunfed hnone).1, hfed⟩
  by_contra hsome
  obtain ⟨feed, hfeed⟩ := Option.ne_none_iff_exists'.mp hsome
  obtain ⟨ends, hends, _⟩ := Option.map_eq_some_iff.mp ((h.linked.feed_iff id 0 feed).mp hfeed)
  have hsource : graph.source? feed = some ends.source := by rw [Graph.source?, hends]; rfl
  exact (hfed feed ends.source hfeed hsource).1.ne hends hsame

/-- A marker with a producer and a reader, beside a node that has its temporary name. -/
def takenMarker : Graph :=
  [Operation.addNode { opType := "Relu", name := some "producer", outputs := 1 },
    .addNode { opType := "FakeOutput", name := some "out", inputs := 1, outputs := 1 },
    .addNode { opType := "Result", name := some "reader", inputs := 1 },
    .addNode { opType := "Const", name := some "out/TBD" },
    .connect (.output ⟨0⟩ 0) (.input ⟨1⟩ 0),
    .connect (.output ⟨1⟩ 0) (.input ⟨2⟩ 0)].foldl
      (fun graph operation => operation.perform.after graph) .empty

/-- The marker is unplugged when its renaming fails. -/
theorem unchanged_of_failed_resolution_iff_takenMarker :
    ∃ error result, (resolveMarker ⟨[("fake", ⟨1⟩)]⟩).run takenMarker = .error error result ∧
      result ≠ takenMarker ∧ Unplugged takenMarker ⟨1⟩ ⟨0⟩ (.output ⟨0⟩ 0) result := by
  have hreachable : takenMarker.Reachable := Graph.reachable_of_operations _
  obtain ⟨marker, hn⟩ : ∃ marker, takenMarker.node? ⟨1⟩ = some marker := ⟨_, rfl⟩
  obtain ⟨error, result, hrun⟩ : ∃ error result,
      (resolveMarker ⟨[("fake", ⟨1⟩)]⟩).run takenMarker = .error error result := ⟨_, _, rfl⟩
  obtain ⟨hsame, _, hfed⟩ := unchanged_of_failed_resolution_iff hreachable hn hrun
  have hfeed : takenMarker.inputConnection? ⟨1⟩ 0 = some ⟨0⟩ := by decide +kernel
  refine ⟨error, result, hrun, fun hequal => ?_, (hfed _ _ hfeed (by decide +kernel)).1⟩
  rw [hsame.mp hequal] at hfeed
  cases hfeed

/-- After the failure the reader is fed by the producer, and the feed of the marker is gone. -/
theorem reader_rewired_takenMarker :
    takenMarker.Reachable ∧ takenMarker.inputSource? ⟨2⟩ 0 = some (.output ⟨1⟩ 0) ∧
      (takenMarker.connection? ⟨0⟩).isSome = true ∧
        ∃ error result, (resolveMarker ⟨[("fake", ⟨1⟩)]⟩).run takenMarker = .error error result ∧
          result ≠ takenMarker ∧ result.inputSource? ⟨2⟩ 0 = some (.output ⟨0⟩ 0) ∧
            result.connection? ⟨0⟩ = none := by
  refine ⟨Graph.reachable_of_operations _, by decide +kernel, by decide +kernel, _, _, rfl,
    fun hsame => ?_, by decide +kernel, by decide +kernel⟩
  have hfeed := congrArg (fun graph : Graph => (graph.connection? ⟨0⟩).isSome) hsame
  exact absurd hfeed (by decide +kernel)

end OpGraph
