import OpGraph.Proofs.Edit.Exact
import OpGraph.Proofs.Graph.CyclicNodes

/-!
# First ready, first listed

Nodes that are ready wait in a queue, so they are listed in the order in which they became ready.
Nodes that read nothing are ready from the start and wait in the order of their creation. Nodes
that become ready together wait in the order of their last connections from the node whose listing
made them ready. An older node that becomes ready late is not preferred to a younger one that
waits already: the order is not the least one by the order of creation.
-/

namespace OpGraph.Graph

variable {graph : Graph} {id first second : NodeId} {queue listed later order other : List NodeId}

/-- All that the node reads is listed. -/
def Ready (graph : Graph) (listed : List NodeId) (id : NodeId) : Prop :=
  ∀ source, graph.Reads id source → source ∈ listed

/-- Why the first one of two ready nodes waits in front of the second one. -/
inductive Sooner (graph : Graph) (listed : List NodeId) (first second : NodeId) : Prop where
  /-- Both are ready from the start, and the first one was created earlier. -/
  | created (ready_first : graph.Ready [] first) (ready_second : graph.Ready [] second)
      (older : graph.nodes.keys.idxOf first < graph.nodes.keys.idxOf second)
  /-- The first one was ready at a moment when the second one was not. -/
  | earlier {moment : List NodeId} (past : moment <+: listed)
      (ready_first : graph.Ready moment first) (waiting_second : ¬ graph.Ready moment second)
  /-- Both became ready when one and the same node was listed, and among the connections of this
  node the last one to the first node stands before the last one to the second node. -/
  | together {moment : List NodeId} {source : NodeId} (past : moment ++ [source] <+: listed)
      (waiting_first : ¬ graph.Ready moment first) (waiting_second : ¬ graph.Ready moment second)
      (ready_first : graph.Ready (moment ++ [source]) first)
      (ready_second : graph.Ready (moment ++ [source]) second)
      (order : (graph.successors source).reverse.idxOf second <
        (graph.successors source).reverse.idxOf first)

/-- Of the nodes that are ready and not listed the node waits in front of all others. -/
structure Due (graph : Graph) (listed : List NodeId) (id : NodeId) : Prop where
  /-- The node exists. -/
  found : (graph.node? id).isSome = true
  /-- It is not listed. -/
  new : id ∉ listed
  /-- All that it reads is listed. -/
  ready : graph.Ready listed id
  /-- All others that are ready have to wait longer. -/
  sooner : ∀ other, (graph.node? other).isSome = true → other ∉ listed → other ≠ id →
    graph.Ready listed other → graph.Sooner listed id other

/-! ### One place in front of the queue -/

/-- What was ready stays ready while more nodes are listed. -/
theorem Ready.mono (h : graph.Ready listed id) (hlater : listed <+: later) :
    graph.Ready later id :=
  fun source hreads => hlater.subset (h source hreads)

/-- Nodes that are waiting keep their order while more nodes are listed. -/
theorem Sooner.mono (h : graph.Sooner listed first second) (hlater : listed <+: later) :
    graph.Sooner later first second := by
  cases h with
  | created ready_first ready_second older => exact .created ready_first ready_second older
  | earlier past ready_first waiting_second =>
    exact .earlier (past.trans hlater) ready_first waiting_second
  | together past waiting_first waiting_second ready_first ready_second order =>
    exact .together (past.trans hlater) waiting_first waiting_second ready_first ready_second order

/-- Of two moments of one listing that at which a node is ready is the later one. -/
theorem Ready.length_lt {moment : List NodeId} (hready : graph.Ready later id)
    (hwaiting : ¬ graph.Ready moment id) (hmoment : moment <+: listed) (hlater : later <+: listed) :
    moment.length < later.length := by
  rcases List.prefix_or_prefix_of_prefix hmoment hlater with hle | hle
  · refine lt_of_le_of_ne hle.length_le fun hlength => ?_
    rw [hle.eq_of_length hlength] at hwaiting
    exact hwaiting hready
  · exact absurd (hready.mono hle) hwaiting

/-- Of two nodes only one can wait in front of the other. -/
theorem Sooner.asymm (h : graph.Sooner listed first second) :
    ¬ graph.Sooner listed second first := by
  intro h'
  cases h with
  | created ready_first ready_second older =>
    cases h' with
    | created _ _ older' => omega
    | earlier _ _ waiting' => exact waiting' (ready_first.mono List.nil_prefix)
    | together _ _ waiting' _ _ _ => exact waiting' (ready_first.mono List.nil_prefix)
  | @earlier moment past ready waiting =>
    cases h' with
    | created ready' _ _ => exact waiting (ready'.mono List.nil_prefix)
    | earlier past' ready' waiting' =>
      have hlt := ready'.length_lt waiting past past'
      have hgt := ready.length_lt waiting' past' past
      omega
    | @together moment' source' past' _ waiting' ready' _ _ =>
      have hlt := ready'.length_lt waiting past past'
      have hgt := ready.length_lt waiting' ((List.prefix_append _ _).trans past') past
      rw [List.length_append, List.length_singleton] at hlt
      omega
  | @together moment source past waiting_first waiting_second ready_first ready_second order =>
    have hpast := (List.prefix_append moment [source]).trans past
    cases h' with
    | created ready' _ _ => exact waiting_second (ready'.mono List.nil_prefix)
    | earlier past' ready' waiting' =>
      have hlt := ready'.length_lt waiting_second hpast past'
      have hgt := ready_first.length_lt waiting' past' past
      rw [List.length_append, List.length_singleton] at hgt
      omega
    | @together moment' source' past' waiting' _ ready' _ order' =>
      -- Both are released at one moment, and so by one node.
      have hlt := ready'.length_lt waiting_second hpast past'
      have hgt := ready_second.length_lt waiting' ((List.prefix_append _ _).trans past') past
      rw [List.length_append, List.length_singleton] at hlt hgt
      have hlength : (moment ++ [source]).length = (moment' ++ [source']).length := by
        rw [List.length_append, List.length_append, List.length_singleton, List.length_singleton]
        omega
      have hsame := (List.prefix_of_prefix_length_le past past' hlength.le).eq_of_length hlength
      obtain ⟨_, hsource⟩ := List.append_inj' hsame rfl
      cases hsource
      omega

/-- There is one node at most whose turn it is. -/
theorem Due.unique (h : graph.Due listed first) (h' : graph.Due listed second) : first = second := by
  by_contra hne
  exact (h.sooner second h'.found h'.new (Ne.symm hne) h'.ready).asymm
    (h'.sooner first h.found h.new hne h.ready)

/-! ### The queue -/

/-- Released nodes wait in the order of their last connections. -/
theorem pairwise_released (listed : List NodeId) (id : NodeId) :
    (graph.released listed id).Pairwise fun first second =>
      (graph.successors id).reverse.idxOf second < (graph.successors id).reverse.idxOf first := by
  unfold released
  exact (List.pairwise_reverse.mpr (pairwise_idxOf_eraseDups _)).filter _

/-- In the beginning nodes wait in the order of their creation. -/
theorem Coherent.pairwise_roots (h : graph.Coherent) :
    graph.roots.Pairwise (graph.Sooner []) := by
  have hplaced : graph.roots.Pairwise fun first second =>
      graph.nodes.keys.idxOf first < graph.nodes.keys.idxOf second :=
    (pairwise_idxOf_of_nodup graph.nodes.nodup_keys).sublist (List.filter_sublist.map Prod.fst)
  have hready : ∀ id ∈ graph.roots, graph.Ready [] id := fun id hid =>
    h.frontier_roots.ready id hid
  exact hplaced.imp_of_mem fun hfirst hsecond holder =>
    .created (hready _ hfirst) (hready _ hsecond) holder

/-- When a node is listed the others keep their order, and those that it releases wait behind. -/
theorem Frontier.pairwise_step (hfrontier : graph.Frontier (id :: queue) listed)
    (h : graph.Coherent) (hqueue : (id :: queue).Pairwise (graph.Sooner listed)) :
    (queue ++ graph.released (listed ++ [id]) id).Pairwise (graph.Sooner (listed ++ [id])) := by
  have hnew := hfrontier.notMem_head
  have hwaiting : ∀ next ∈ graph.released (listed ++ [id]) id, ¬ graph.Ready listed next :=
    fun next hnext hready => hnew (hready id (h.mem_released_iff.mp hnext).1)
  have hready : ∀ next ∈ graph.released (listed ++ [id]) id, graph.Ready (listed ++ [id]) next :=
    fun next hnext => (h.mem_released_iff.mp hnext).2
  refine List.pairwise_append.mpr ⟨?_, ?_, ?_⟩
  · exact (List.pairwise_cons.mp hqueue).2.imp fun hsooner => hsooner.mono (List.prefix_append _ _)
  · exact (pairwise_released _ id).imp_of_mem fun hfirst hsecond horder =>
      .together (List.prefix_refl _) (hwaiting _ hfirst) (hwaiting _ hsecond) (hready _ hfirst)
        (hready _ hsecond) horder
  · exact fun first hfirst second hsecond =>
      .earlier (List.prefix_append _ _) (hfrontier.ready first (by simp [hfirst]))
        (hwaiting second hsecond)

/-- The node in front of the queue is due. -/
theorem Frontier.due (hfrontier : graph.Frontier (id :: queue) listed)
    (hqueue : (id :: queue).Pairwise (graph.Sooner listed)) : graph.Due listed id where
  found := hfrontier.found id (by simp)
  new := hfrontier.notMem_head
  ready := hfrontier.ready id (by simp)
  sooner other hsome hnew hne hready := by
    have hwaits := hfrontier.complete other hsome hready
    simp only [List.mem_append, List.mem_cons, hnew, hne, false_or] at hwaits
    exact (List.pairwise_cons.mp hqueue).1 other hwaits

/-- Every node is listed when it is due. -/
theorem Frontier.due_of_listFrom (hfrontier : graph.Frontier queue listed) (h : graph.Coherent)
    (hqueue : queue.Pairwise (graph.Sooner listed)) (steps : Nat) :
    ∃ order, graph.listFrom steps queue listed = listed ++ order ∧
      InTurn (fun front id => graph.Due (listed ++ front) id) order := by
  induction steps generalizing queue listed with
  | zero => exact ⟨[], by simp [Graph.listFrom], inTurn_nil⟩
  | succ steps ih =>
    cases queue with
    | nil => exact ⟨[], by simp [Graph.listFrom], inTurn_nil⟩
    | cons id rest =>
      obtain ⟨order, horder, hdue⟩ := ih (hfrontier.step h) (hfrontier.pairwise_step h hqueue)
      refine ⟨id :: order, by simpa [Graph.listFrom] using horder, inTurn_cons.mpr ⟨?_, ?_⟩⟩
      · rw [List.append_nil]
        exact hfrontier.due hqueue
      · simpa using hdue

/-- A listing in which each node is due is determined by its length. -/
theorem eq_of_inTurn_due
    (horder : InTurn (fun front id => graph.Due (listed ++ front) id) order)
    (hother : InTurn (fun front id => graph.Due (listed ++ front) id) other)
    (hlength : order.length = other.length) : order = other := by
  induction order generalizing other listed with
  | nil => exact (List.length_eq_zero_iff.mp hlength.symm).symm
  | cons id rest ih =>
    cases other with
    | nil => cases hlength
    | cons next behind =>
      obtain ⟨hid, hrest⟩ := inTurn_cons.mp horder
      obtain ⟨hnext, hbehind⟩ := inTurn_cons.mp hother
      rw [List.append_nil] at hid hnext
      obtain rfl := hid.unique hnext
      have hrest : InTurn (fun front other => graph.Due ((listed ++ [id]) ++ front) other) rest := by
        simpa using hrest
      have hbehind :
          InTurn (fun front other => graph.Due ((listed ++ [id]) ++ front) other) behind := by
        simpa using hbehind
      rw [ih hrest hbehind (Nat.succ.inj hlength)]

/-! ### The order -/

/-- An order is a listing from the nodes that read nothing. -/
theorem eq_listFrom_of_topologicalOrder (horder : graph.topologicalOrder = .ok order) :
    graph.listFrom graph.nodes.size graph.roots [] = order := by
  unfold topologicalOrder at horder
  dsimp only at horder
  split at horder
  · cases horder
    rfl
  · cases horder

/-- A reachable graph without cycles has an order in which, at every place, the node stands that
was ready before all others that are ready there and not listed yet: nodes that read nothing in
the order of their creation, then the others in the order in which the last of their sources was
listed and, at one source, in the order of its last connections to them. No other list of so many
nodes has this property. -/
theorem nodes_listed_when_due (hreachable : graph.Reachable)
    (hacyclic : ∀ id, ¬ graph.OnCycle id) :
    ∃ order, graph.topologicalOrder = .ok order ∧
      (∀ listed id rest, order = listed ++ id :: rest → graph.Due listed id) ∧
        ∀ other : List NodeId, other.length = order.length →
          (∀ listed id rest, other = listed ++ id :: rest → graph.Due listed id) → other = order := by
  have h := hreachable.coherent
  obtain ⟨order, horder⟩ := h.exists_order_iff.mpr hacyclic
  obtain ⟨listing, hlisting, hdue⟩ :=
    h.frontier_roots.due_of_listFrom h h.pairwise_roots graph.nodes.size
  rw [eq_listFrom_of_topologicalOrder horder, List.nil_append] at hlisting
  subst hlisting
  refine ⟨order, horder, hdue, fun other hlength hother => ?_⟩
  have hother : InTurn (fun front id => graph.Due ([] ++ front) id) other := hother
  exact eq_of_inTurn_due hother hdue hlength

/-- An activation, the input that it reads and another input, in the order of their creation. -/
def lateReader : Graph :=
  [Operation.addNode { opType := "Relu", name := some "late", inputs := 1, outputs := 1 },
    .addNode { opType := "Parameter", name := some "first", outputs := 1 },
    .addNode { opType := "Parameter", name := some "second", outputs := 1 },
    .connect (.output ⟨1⟩ 0) (.input ⟨0⟩ 0)].foldl (fun graph operation =>
      operation.perform.after graph) .empty

theorem topologicalOrder_lateReader : lateReader.topologicalOrder = .ok [⟨1⟩, ⟨2⟩, ⟨0⟩] := by
  rfl

/-- When the first input is listed the second one is due, because it was ready before. -/
theorem nodes_listed_when_due_lateReader :
    lateReader.topologicalOrder = .ok [⟨1⟩, ⟨2⟩, ⟨0⟩] ∧ lateReader.Due [⟨1⟩] ⟨2⟩ := by
  have hreachable : lateReader.Reachable := reachable_of_operations _
  have hacyclic := hreachable.coherent.exists_order_iff.mp ⟨_, topologicalOrder_lateReader⟩
  obtain ⟨order, horder, hdue, _⟩ := nodes_listed_when_due hreachable hacyclic
  rw [topologicalOrder_lateReader] at horder
  cases horder
  exact ⟨topologicalOrder_lateReader, hdue [⟨1⟩] ⟨2⟩ [⟨0⟩] rfl⟩

/-- When the first input is listed the activation is ready, and it is the oldest node, but the
second input is listed next. -/
theorem older_node_passed_over_lateReader :
    lateReader.Reachable ∧ (∀ id, ¬ lateReader.OnCycle id) ∧
      lateReader.topologicalOrder = .ok ([⟨1⟩] ++ ⟨2⟩ :: [⟨0⟩]) ∧
        (lateReader.node? ⟨0⟩).isSome = true ∧ lateReader.Ready [⟨1⟩] ⟨0⟩ ∧
          lateReader.nodes.keys.idxOf ⟨0⟩ < lateReader.nodes.keys.idxOf ⟨2⟩ := by
  have hreachable : lateReader.Reachable := reachable_of_operations _
  have hacyclic := hreachable.coherent.exists_order_iff.mp ⟨_, topologicalOrder_lateReader⟩
  have hready : ∀ source ∈ lateReader.predecessors ⟨0⟩, source ∈ [(⟨1⟩ : NodeId)] := by
    decide
  exact ⟨hreachable, hacyclic, topologicalOrder_lateReader, rfl,
    fun source hreads => hready source (mem_predecessors_iff.mpr hreads), by decide⟩

end OpGraph.Graph
