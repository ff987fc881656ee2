import OpGraph.Proofs.Cycle
import OpGraph.Proofs.Graph.Counting
import OpGraph.Proofs.Reachable

/-!
# The nodes that have no place in an order

A reachable graph has a topological order exactly if its connections form no cycle, self-loops
included. The listing of a graph with cycles stops at the nodes on cycles and at all nodes that can
be reached from them, and the error names just these.
-/

namespace OpGraph.Graph

variable {graph : Graph} {id first second : NodeId} {order : List NodeId}

/-- A connection runs from the first node to the second. -/
def Leads (graph : Graph) (first second : NodeId) : Prop :=
  ∃ connection ends, graph.connection? connection = some ends ∧
    ends.source.node = first ∧ ends.destination.node = second

/-- Connections lead from the node back to itself. -/
def OnCycle (graph : Graph) (id : NodeId) : Prop := Relation.TransGen graph.Leads id id

/-- The node is on a cycle, or connections lead from a cycle to it. -/
def BehindCycle (graph : Graph) (id : NodeId) : Prop :=
  ∃ start, graph.OnCycle start ∧ Relation.ReflTransGen graph.Leads start id

/-- A connection runs to a node exactly from those that it reads. -/
theorem Coherent.leads_iff (h : graph.Coherent) :
    graph.Leads first second ↔ graph.Reads second first := by
  constructor
  · rintro ⟨connection, ends, hends, rfl, rfl⟩
    exact ⟨_, _, h.linked.inputSource?_of_connection? hends, rfl⟩
  · rintro ⟨index, port, hport, rfl⟩
    rw [inputSource?_eq] at hport
    obtain ⟨connection, hslot, hsource⟩ := Option.bind_eq_some_iff.mp hport
    obtain ⟨ends, hends, rfl⟩ := Option.map_eq_some_iff.mp hsource
    have hdestination := (h.linked.feed_iff _ _ connection).mp hslot
    rw [destination?, hends, Option.map_some, Option.some.injEq] at hdestination
    exact ⟨connection, ends, hends, rfl, by rw [hdestination]; rfl⟩

/-! ### What is not listed -/

/-- Along connections to a listed node all nodes are listed, each one before the next. -/
theorem Frontier.idxOf_lt_of_leads (hend : graph.Frontier [] order)
    (hsources : graph.SourcesFirst [] order) (h : graph.Coherent)
    (hleads : Relation.TransGen graph.Leads first second) (hsecond : second ∈ order) :
    first ∈ order ∧ order.idxOf first < order.idxOf second := by
  have hstep : ∀ source id, graph.Leads source id → id ∈ order →
      source ∈ order ∧ order.idxOf source < order.idxOf id := by
    intro source id hleads hid
    have hreads := h.leads_iff.mp hleads
    exact ⟨hend.ready id (by simpa using hid) source hreads, hsources.idxOf_lt hid hreads⟩
  induction hleads using Relation.TransGen.head_induction_on with
  | single hlast => exact hstep _ _ hlast hsecond
  | head hfirst _ ih =>
    obtain ⟨hmem, hlt⟩ := hstep _ _ hfirst ih.1
    exact ⟨hmem, hlt.trans ih.2⟩

/-- A complete listing lacks the nodes behind cycles and no other. -/
theorem Frontier.notMem_iff (hend : graph.Frontier [] order)
    (hsources : graph.SourcesFirst [] order) (h : graph.Coherent)
    (hsome : (graph.node? id).isSome = true) : id ∉ order ↔ graph.BehindCycle id := by
  constructor
  · intro hnew
    -- Whatever is not listed reads something else that is not listed.
    have hback : ∀ id ∈ graph.nodes.keys.filter (· ∉ order),
        ∃ source ∈ graph.nodes.keys.filter (· ∉ order), graph.Leads source id := by
      intro id hid
      obtain ⟨hkey, hnew⟩ := List.mem_filter.mp hid
      have hwaiting : ¬ ∀ source, graph.Reads id source → source ∈ order := fun hready =>
        of_decide_eq_true hnew (by
          simpa using hend.complete id ((graph.nodes.mem_keys_iff id).mp hkey) hready)
      push Not at hwaiting
      obtain ⟨source, hreads, hsource⟩ := hwaiting
      have hfound := (graph.nodes.mem_keys_iff source).mpr (h.isSome_of_reads hreads)
      exact ⟨source, List.mem_filter.mpr ⟨hfound, decide_eq_true hsource⟩, h.leads_iff.mpr hreads⟩
    have hid : id ∈ graph.nodes.keys.filter (· ∉ order) :=
      List.mem_filter.mpr ⟨(graph.nodes.mem_keys_iff id).mpr hsome, decide_eq_true hnew⟩
    obtain ⟨start, hcycle, hleads⟩ := exists_cycle_before hback hid
    exact ⟨start, hcycle, hleads.to_reflTransGen⟩
  · rintro ⟨start, hcycle, hleads⟩ hid
    have hloop : Relation.TransGen graph.Leads start id := Relation.TransGen.trans_left hcycle hleads
    obtain ⟨hstart, _⟩ := hend.idxOf_lt_of_leads hsources h hloop hid
    have hlt := (hend.idxOf_lt_of_leads hsources h hcycle hstart).2
    omega

/-- Every node is listed exactly if no node is on a cycle. -/
theorem Frontier.length_eq_iff_acyclic (hend : graph.Frontier [] order)
    (hsources : graph.SourcesFirst [] order) (h : graph.Coherent) :
    order.length = graph.nodes.size ↔ ∀ id, ¬ graph.OnCycle id := by
  rw [hend.length_eq_iff]
  constructor
  · intro hall id hcycle
    obtain ⟨source, hleads, _⟩ := Relation.TransGen.head'_iff.mp hcycle
    have hsome : (graph.node? id).isSome = true := by
      obtain ⟨next, hnext⟩ : ∃ next, graph.Reads next id := ⟨source, h.leads_iff.mp hleads⟩
      exact h.isSome_of_reads hnext
    exact (hend.notMem_iff hsources h hsome).mpr ⟨id, hcycle, .refl⟩ (hall id hsome)
  · intro hacyclic id hsome
    by_contra hnew
    obtain ⟨start, hcycle, _⟩ := (hend.notMem_iff hsources h hsome).mp hnew
    exact hacyclic start hcycle

/-- There is an order exactly if there is no cycle. -/
theorem Coherent.exists_order_iff (h : graph.Coherent) :
    (∃ order, graph.topologicalOrder = .ok order) ↔ ∀ id, ¬ graph.OnCycle id := by
  obtain ⟨listing, hsources, hend, hlisting⟩ := h.exists_listing
  rw [← hend.length_eq_iff_acyclic hsources h, hlisting]
  constructor
  · rintro ⟨order, horder⟩
    by_contra hlength
    rw [if_neg hlength] at horder
    cases horder
  · exact fun hlength => ⟨listing, if_pos hlength⟩

/-! ### The order -/

/-- A reachable graph has an order exactly if its connections form no cycle. The order holds every
node once, and every connection leads from a node to one that stands later. If there is no order
then the error names, in the order of the nodes, exactly those on cycles and those to which
connections lead from a cycle. Counting connected inputs down leads to the same answer, and it ends
after one step for each node at the latest. -/
theorem topologicalOrder_exact (hreachable : graph.Reachable) :
    (∀ steps, graph.nodes.size ≤ steps →
      graph.orderByCounting steps = graph.topologicalOrder) ∧
    ((∃ order, graph.topologicalOrder = .ok order) ↔ ∀ id, ¬ graph.OnCycle id) ∧
    (∀ order, graph.topologicalOrder = .ok order → order.Nodup ∧
      (∀ id, id ∈ order ↔ (graph.node? id).isSome = true) ∧
        ∀ connection ends, graph.connection? connection = some ends →
          order.idxOf ends.source.node < order.idxOf ends.destination.node) ∧
    ∀ error, graph.topologicalOrder = .error error →
      ∃ unreached : List (NodeId × Node),
        error = .validationFailed (.cycle (unreached.map fun (_, node) => node.name)) ∧
        unreached.Sublist graph.nodes.toList ∧
          ∀ id node, (id, node) ∈ unreached ↔ graph.node? id = some node ∧ graph.BehindCycle id := by
  have h := hreachable.coherent
  obtain ⟨listing, hsources, hend, hlisting⟩ := h.exists_listing
  refine ⟨fun _ hsteps => h.orderByCounting_eq hsteps, h.exists_order_iff, ?_, ?_⟩
  · intro order horder
    rw [hlisting] at horder
    split at horder
    · rename_i hlength
      cases horder
      have hall : ∀ id, (graph.node? id).isSome = true → id ∈ listing :=
        hend.length_eq_iff.mp hlength
      refine ⟨by simpa using hend.nodup, fun id => ⟨fun hid => hend.found id (by simpa using hid),
        hall id⟩, fun connection ends hends => ?_⟩
      have hleads : graph.Leads ends.source.node ends.destination.node :=
        ⟨connection, ends, hends, rfl, rfl⟩
      have hsome := (h.leads_iff.mp hleads).isSome
      exact (hend.idxOf_lt_of_leads hsources h (.single hleads) (hall _ hsome)).2
    · cases horder
  · intro error herror
    rw [hlisting] at herror
    split at herror
    · cases herror
    · cases herror
      refine ⟨_, rfl, List.filter_sublist, fun id node => ?_⟩
      have hentry : (id, node) ∈ graph.nodes.toList ↔ graph.node? id = some node :=
        (graph.nodes.get?_eq_some_iff id node).symm
      rw [List.mem_filter, hentry]
      refine and_congr_right fun hn => ?_
      rw [← hend.notMem_iff hsources h (by rw [hn]; rfl)]
      simp

/-- An input that feeds a loop of two operators, and a graph output that reads from the loop. -/
def loopWithTail : Graph :=
  [Operation.addNode { opType := "Parameter", name := some "source", outputs := 1 },
    .addNode { opType := "Concat", name := some "merge", inputs := 2, outputs := 1 },
    .addNode { opType := "Relu", name := some "back", inputs := 1, outputs := 1 },
    .addNode { opType := "Result", name := some "tail", inputs := 1 },
    .connect (.output ⟨0⟩ 0) (.input ⟨1⟩ 0),
    .connect (.output ⟨2⟩ 0) (.input ⟨1⟩ 1),
    .connect (.output ⟨1⟩ 0) (.input ⟨2⟩ 0),
    .connect (.output ⟨2⟩ 0) (.input ⟨3⟩ 0)].foldl (fun graph operation =>
      operation.perform.after graph) .empty

/-- There is a cycle, and the graph output is named because it lies behind it. -/
theorem topologicalOrder_exact_loopWithTail :
    loopWithTail.topologicalOrder =
        .error (.validationFailed (.cycle ["merge", "back", "tail"])) ∧
      (∃ id, loopWithTail.OnCycle id) ∧
        ∃ id node, loopWithTail.node? id = some node ∧ node.name = "tail" ∧
          loopWithTail.BehindCycle id := by
  have hreachable : loopWithTail.Reachable := reachable_of_operations _
  have herror : loopWithTail.topologicalOrder =
      .error (.validationFailed (.cycle ["merge", "back", "tail"])) := by
    rfl
  obtain ⟨_, hacyclic, _, hnamed⟩ := topologicalOrder_exact hreachable
  refine ⟨herror, ?_, ?_⟩
  · by_contra hnone
    push Not at hnone
    obtain ⟨order, horder⟩ := hacyclic.mpr hnone
    rw [herror] at horder
    cases horder
  · obtain ⟨unreached, hnames, _, hunreached⟩ := hnamed _ herror
    injection hnames with hnames
    injection hnames with hnames
    have htail : "tail" ∈ unreached.map fun (_, node) => node.name := by
      rw [← hnames]
      decide
    obtain ⟨⟨id, node⟩, hmem, hname⟩ := List.mem_map.mp htail
    obtain ⟨hn, hbehind⟩ := (hunreached id node).mp hmem
    exact ⟨id, node, hn, hname, hbehind⟩

end OpGraph.Graph
