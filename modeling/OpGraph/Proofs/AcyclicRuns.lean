import OpGraph.Proofs.Infer.Visited
import OpGraph.Proofs.Pass.MarkerSettled
import OpGraph.Proofs.Pass.Turns

/-!
# Standard passes keep graphs acyclic

Nothing checks for cycles when a pass connects nodes, and none is needed. A marker is bypassed along
a way that led through it before. A terminal is new and read by nobody, and the constant for the axis
of a gather is new and reads nothing. So each visit of a standard pass leaves an acyclic graph
acyclic, and a run is a sequence of visits.
-/

namespace OpGraph

open Edit

variable {graph later result : Graph} {pass : Pass} {id other source start : NodeId} {node owner : Node}
  {make : Node → Node} {ports : List Nat} {terminals : List Terminal} {verify : Bool} {stats : PassStats}

namespace Graph

/-! ### New readers -/

/-- Nodes that were not there before may all read one that was. -/
theorem Acyclic.extend_new (h : graph.Acyclic) (hgraph : graph.Coherent)
    (hstart : (graph.node? start).isSome = true)
    (hreads : ∀ id source, later.Reads id source →
      graph.Reads id source ∨ (graph.node? id = none ∧ source = start)) : later.Acyclic := by
  obtain ⟨rank, hrank⟩ := h
  -- The new nodes stand right above the one that they read.
  refine ⟨fun id => if (graph.node? id).isSome then rank id else rank start + 1,
    fun id source h => ?_⟩
  dsimp only
  rcases hreads id source h with hold | ⟨hnew, rfl⟩
  · rw [if_pos hold.isSome, if_pos (hgraph.isSome_of_reads hold)]
    exact hrank id source hold
  · rw [if_pos hstart, hnew]
    exact Nat.lt_succ_self _

/-- What a node reads in an extended graph it read before or reads through a new connection. -/
theorem Extended.reads {added : List (NodeId × Node)} {links : List (ConnectionId × Connection)}
    (h : graph.Extended added links later) (hgraph : graph.Linked) (hreads : later.Reads id source) :
    graph.Reads id source ∨
      ∃ link ∈ links, link.2.destination.node = id ∧ link.2.source.node = source := by
  obtain ⟨index, port, hport, rfl⟩ := hreads
  rw [inputSource?_eq] at hport
  obtain ⟨feed, hfeed, hsource⟩ := Option.bind_eq_some_iff.mp hport
  obtain ⟨ends, hends, rfl⟩ := Option.map_eq_some_iff.mp hsource
  have hdestination := (h.coherent.linked.feed_iff id index feed).mp hfeed
  rw [destination?, hends, Option.map_some, Option.some.injEq] at hdestination
  rcases h.connection?_iff.mp hends with hold | hnew
  · have hthere := hgraph.inputSource?_of_connection? hold
    rw [hdestination] at hthere
    exact .inl ⟨index, ends.source, hthere, rfl⟩
  · exact .inr ⟨(feed, ends), hnew, congrArg (·.node) hdestination, rfl⟩

/-- Attached terminals close no cycle, since they are new. -/
theorem Attached.acyclic (h : graph.Attached id owner ports terminals later)
    (hgraph : graph.Coherent) (hn : graph.node? id = some owner) (hacyclic : graph.Acyclic) :
    later.Acyclic := by
  have hthere : (graph.node? id).isSome = true := by rw [hn]; rfl
  refine hacyclic.extend_new hgraph hthere fun other source hreads => ?_
  rcases h.extended.reads hgraph.linked hreads with hold | ⟨link, hlink, rfl, rfl⟩
  · exact .inl hold
  · obtain ⟨terminal, hterminal, rfl⟩ := List.mem_map.mp hlink
    exact .inr ⟨h.extended.node?_eq_none_of_mem (List.mem_map_of_mem hterminal), rfl⟩

/-! ### New sources -/

/-- A constant for the axis closes no cycle, since it reads nothing. -/
theorem Acyclic.moveAxis (h : graph.Acyclic) (hgraph : graph.Coherent)
    (hn : graph.node? id = some node) (hfree : graph.inputConnection? id 2 = none) (axis : Int) :
    (graph.moveAxis id node axis).Acyclic := by
  refine h.extend_first (hgraph.ne_nextNode hn) ?_ fun other source hreads => ?_
  · rintro source ⟨index, port, hport, _⟩
    rw [hgraph.inputSource?_next] at hport
    cases hport
  · obtain ⟨index, port, hport, rfl⟩ := hreads
    rw [hgraph.inputSource?_moveAxis axis hn hfree] at hport
    split at hport
    · rename_i hboth
      cases hport
      exact .inr ⟨hboth.1, rfl⟩
    · exact .inl ⟨index, port, hport, rfl⟩

end Graph

/-! ### One visit -/

/-- Resolving a marker closes no cycle. -/
theorem acyclic_of_run_resolveMarker (h : graph.Coherent) (hacyclic : graph.Acyclic)
    {found : Match} (hrun : (resolveMarker found).run graph = .ok () result) : result.Acyclic := by
  obtain ⟨id, marker, source, producer, _, _, hsource, _, hresolved⟩ := resolved_of_run h hrun
  cases hresolved with
  | bypassed _ hbypassed => exact hacyclic.bypassed hsource hbypassed
  | identity _ hchanged =>
    rw [hchanged]
    exact hacyclic.congr (Graph.inputSource?_modifyNode (.setOpType "Identity"))

/-- Making a pooling of a known method closes no cycle. -/
theorem Pass.Recasts.acyclic_of_visit (hpass : pass.Recasts make) (h : graph.Coherent)
    (hn : graph.node? id = some node) (hacyclic : graph.Acyclic)
    (hrun : (pass.apply ⟨[("pool", id)]⟩).run graph = .ok () result) : result.Acyclic := by
  obtain ⟨hchanged, hnow, _, hattached⟩ := hpass.attached_of_visit h hn hrun
  exact hattached.acyclic hchanged hnow (hacyclic.congr (Graph.inputSource?_modifyNode hpass.neutral))

/-- A visit of a standard pass closes no cycle. -/
theorem Pass.Standard.acyclic_of_visit (hpass : pass.Standard) (h : graph.Coherent)
    (hn : graph.node? id = some node) (hacyclic : graph.Acyclic)
    (hrun : (pass.visit id).run graph = .ok () result) : result.Acyclic := by
  obtain ⟨builtIn, hmem, hvisit⟩ := hpass.exists_visit_eq
  rw [hvisit] at hrun
  simp only [PassRegistry.standard, List.mem_cons, List.not_mem_nil, or_false] at hmem
  rcases hmem with rfl | rfl | rfl | rfl
  · exact acyclic_of_run_resolveMarker h hacyclic hrun
  · exact recasts_maxPool.acyclic_of_visit h hn hacyclic hrun
  · exact recasts_avgPool.acyclic_of_visit h hn hacyclic hrun
  · obtain ⟨axis, _, hfree, rfl⟩ := eq_moveAxis_of_run_canonizeGather h hn hrun
    exact hacyclic.moveAxis h hn hfree axis

/-! ### Runs -/

/-- A run of a standard pass closes no cycle. -/
theorem Pass.Standard.acyclic_of_run (hpass : pass.Standard) (h : graph.Coherent)
    (hacyclic : graph.Acyclic) (hrun : (pass.run verify).run graph = .ok stats result) :
    result.Coherent ∧ result.Acyclic :=
  (hpass.turns_of_run h hrun).1.preserves hpass h hacyclic hpass.acyclic_of_visit

/-- On a reachable graph that has an order, a run of a standard pass that succeeds leaves a graph
behind that has an order too. -/
theorem exists_order_of_run (hreachable : graph.Reachable) (hpass : pass.Standard)
    (horder : ∃ order, graph.topologicalOrder = .ok order)
    (hrun : (pass.run verify).run graph = .ok stats result) :
    ∃ order, result.topologicalOrder = .ok order := by
  have h := hreachable.coherent
  obtain ⟨order, horder⟩ := horder
  have hacyclic : graph.Acyclic := (h.isOrder_of_topologicalOrder horder).acyclic
  obtain ⟨hresult, hkept⟩ := hpass.acyclic_of_run h hacyclic hrun
  exact hresult.exists_order hkept

/-- Two markers in a row that share their readers: a sum reads both of them and the activation in
front of them as well. -/
def sharedMarkers : Graph :=
  [Operation.addNode { opType := "Relu", name := some "relu", outputs := 1 },
    .addNode { opType := "FakeOutput", name := some "first", inputs := 1, outputs := 1 },
    .addNode { opType := "FakeOutput", name := some "second", inputs := 1, outputs := 1 },
    .addNode { opType := "Eltwise", name := some "sum", inputs := 3, outputs := 1 },
    .connect (.output ⟨0⟩ 0) (.input ⟨1⟩ 0),
    .connect (.output ⟨1⟩ 0) (.input ⟨2⟩ 0),
    .connect (.output ⟨0⟩ 0) (.input ⟨3⟩ 0),
    .connect (.output ⟨1⟩ 0) (.input ⟨3⟩ 1),
    .connect (.output ⟨2⟩ 0) (.input ⟨3⟩ 2)].foldl
      (fun graph operation => operation.perform.after graph) .empty

/-- Without the markers the sum reads the activation three times. -/
theorem exists_order_of_run_sharedMarkers :
    ∃ stats result, (Pass.outputMarkers.run true).run sharedMarkers = .ok stats result ∧
      result.inputSource? ⟨3⟩ 2 = some (.output ⟨0⟩ 0) ∧
      ∃ order, result.topologicalOrder = .ok order := by
  have hreachable : sharedMarkers.Reachable := Graph.reachable_of_operations _
  have hstandard : Pass.outputMarkers.Standard :=
    PassRegistry.standard_of_mem (by simp [PassRegistry.standard])
  have horder : ∃ order, sharedMarkers.topologicalOrder = .ok order :=
    ⟨[⟨0⟩, ⟨1⟩, ⟨2⟩, ⟨3⟩], by decide +kernel⟩
  obtain ⟨stats, result, hrun, hfeed⟩ : ∃ stats result,
      (Pass.outputMarkers.run true).run sharedMarkers = .ok stats result ∧
        result.inputSource? ⟨3⟩ 2 = some (.output ⟨0⟩ 0) := ⟨_, _, rfl, by decide +kernel⟩
  exact ⟨stats, result, hrun, hfeed, exists_order_of_run hreachable hstandard horder hrun⟩

end OpGraph
