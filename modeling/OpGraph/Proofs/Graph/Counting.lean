import OpGraph.Proofs.Graph.Order

/-!
# An order by counting

Whether all sources of a node are listed can be told by counting. A node starts with the number of
its connected inputs, and every connection from a node that is listed takes one off the number of
the node to which it leads. The node joins the queue when its number comes down to zero. As a
connection is recorded at both of its ends, no number is taken off in vain and none comes down to
zero twice, so that counting leads to the same order.
-/

namespace OpGraph.Graph

variable {graph : Graph} {id next : NodeId} {queue listed : List NodeId}

/-- Number of connected inputs of a node that exists. -/
def inDegree (graph : Graph) (id : NodeId) : Option Nat :=
  (graph.node? id).map fun node => node.inputs.countP fun port => !port.isDisconnected

/-- One is taken off the number of a node, which joins the queue if nothing is left. -/
def countDown (state : (NodeId → Option Nat) × List NodeId) (next : NodeId) :
    (NodeId → Option Nat) × List NodeId :=
  match state.1 next with
  | none => state
  | some count =>
    (Function.update state.1 next (some (count - 1)),
      if count - 1 = 0 then state.2 ++ [next] else state.2)

/-- List the nodes of the queue, and count down where their connections lead. -/
def countFrom (graph : Graph) (steps : Nat) (counts : NodeId → Option Nat)
    (queue listed : List NodeId) : List NodeId :=
  match steps, queue with
  | 0, _ | _, [] => listed
  | steps + 1, id :: rest =>
    let state := (graph.successors id).foldl countDown (counts, rest)
    graph.countFrom steps state.1 state.2 (listed ++ [id])

/-- All nodes, each after the nodes that feed it, found by counting in so many steps. -/
def orderByCounting (graph : Graph) (steps : Nat) : Except GraphError (List NodeId) :=
  let order := graph.countFrom steps graph.inDegree
    (graph.nodes.keys.filter fun id => graph.inDegree id = some 0) []
  if order.length = graph.nodes.size then .ok order
  else
    let unreached := graph.nodes.toList.filter fun (id, _) => !order.contains id
    .error (.validationFailed (.cycle (unreached.map fun (_, node) => node.name)))

/-! ### Connections from one node to another -/

/-- How often a node is reached from connections that are looked up. -/
theorem count_map_filterMap_connection? (ids : List ConnectionId) (f : Connection → NodeId) :
    ((ids.filterMap graph.connection?).map f).count next =
      (ids.filter fun connection => (graph.connection? connection).map f = some next).length := by
  rw [List.map_filterMap, List.count_eq_countP, List.countP_filterMap, ← List.countP_eq_length_filter]
  refine List.countP_congr fun connection _ => ?_
  cases graph.connection? connection <;> simp

/-- As many connections lead from a node to the next one as inputs of the next one are fed by it. -/
theorem Coherent.count_successors (h : graph.Coherent) (id next : NodeId) :
    (graph.successors id).count next = (graph.predecessors next).count id := by
  by_cases hreads : graph.Reads next id
  · obtain ⟨first, hfirst⟩ := Option.isSome_iff_exists.mp (h.isSome_of_reads hreads)
    obtain ⟨second, hsecond⟩ := Option.isSome_iff_exists.mp hreads.isSome
    simp only [successors, predecessors, hfirst, hsecond, count_map_filterMap_connection?]
    -- Both lists hold the connections of the table that lead from the one node to the other.
    refine List.Perm.length_eq ((List.perm_ext_iff_of_nodup
      ((h.linked.nodup_outgoing hfirst).filter _)
      ((h.linked.nodup_incoming hsecond).filter _)).mpr fun connection => ?_)
    rw [List.mem_filter, List.mem_filter, h.mem_outgoing_iff hfirst, h.mem_incoming_iff hsecond]
    simp only [source?, destination?]
    cases graph.connection? connection with
    | none => simp
    | some ends => simp [and_comm]
  · rw [List.count_eq_zero_of_not_mem (h.mem_successors_iff.not.mpr hreads),
      List.count_eq_zero_of_not_mem (mem_predecessors_iff.not.mpr hreads)]

/-- Every connected input has its entry among the predecessors. -/
theorem Coherent.inDegree_eq (h : graph.Coherent) (id : NodeId) :
    graph.inDegree id = (graph.node? id).map fun _ => (graph.predecessors id).length := by
  unfold inDegree predecessors
  cases hn : graph.node? id with
  | none => rfl
  | some node =>
    have hfound : ∀ connection ∈ node.inputs.filterMap (·.connection),
        (graph.connection? connection).isSome = true := by
      intro connection hconnection
      obtain ⟨port, hport, _⟩ := (h.mem_incoming_iff hn connection).mp hconnection
      obtain ⟨ends, hends, _⟩ := Option.map_eq_some_iff.mp hport
      rw [hends]
      rfl
    simp only [Option.map_some, List.length_map]
    rw [List.length_filterMap_eq_countP, List.countP_eq_length.mpr hfound,
      List.length_filterMap_eq_countP]
    refine congrArg some (List.countP_congr fun port _ => ?_)
    simp [InputPort.isDisconnected]

/-! ### One node after another -/

/-- Number of inputs of a node that are fed by nodes that are not listed. -/
def waiting (graph : Graph) (listed : List NodeId) (id : NodeId) : Option Nat :=
  (graph.node? id).map fun _ => (graph.predecessors id).countP (· ∉ listed)

/-- The last places of a list: a first entry has its last place there unless it comes again. -/
theorem reverse_eraseDups_reverse_cons (ids : List NodeId) (id : NodeId) :
    (id :: ids).reverse.eraseDups.reverse =
      (if id ∈ ids then [] else [id]) ++ ids.reverse.eraseDups.reverse := by
  rw [List.reverse_cons, List.eraseDups_append, List.reverse_append]
  by_cases hagain : id ∈ ids
  · simp [List.removeAll, hagain]
  · simp [List.removeAll, hagain, List.eraseDups_cons]

/-- Counting down along a list takes off each number as often as its node occurs, if the numbers
are not smaller than that. The nodes of which nothing is left join the queue in the order of their
last places. -/
theorem foldl_countDown {counts : NodeId → Option Nat} {left : NodeId → Nat} (ids : List NodeId)
    (hcounts : ∀ id ∈ ids, counts id = some (ids.count id + left id)) (queue : List NodeId) :
    ids.foldl countDown (counts, queue) =
      (fun id => if id ∈ ids then some (left id) else counts id,
        queue ++ ids.reverse.eraseDups.reverse.filter fun id => left id = 0) := by
  induction ids generalizing counts queue with
  | nil => simp
  | cons id rest ih =>
    have hfirst : counts id = some (rest.count id + left id + 1) := by
      rw [hcounts id List.mem_cons_self, List.count_cons_self, Nat.add_right_comm]
    have hstep : countDown (counts, queue) id =
        (Function.update counts id (some (rest.count id + left id)),
          if rest.count id + left id = 0 then queue ++ [id] else queue) := by
      simp only [countDown, hfirst, Nat.add_sub_cancel]
    have hrest : ∀ other ∈ rest, Function.update counts id (some (rest.count id + left id)) other =
        some (rest.count other + left other) := by
      intro other hother
      by_cases hsame : other = id
      · rw [hsame, Function.update_self]
      · rw [Function.update_of_ne hsame, hcounts other (List.mem_cons_of_mem id hother),
          List.count_cons_of_ne (Ne.symm hsame)]
    rw [List.foldl_cons, hstep, ih hrest, reverse_eraseDups_reverse_cons]
    refine Prod.ext (funext fun other => ?_) ?_
    · by_cases hagain : other ∈ rest
      · simp [hagain]
      · by_cases hsame : other = id
        · subst hsame
          simp [hagain, List.count_eq_zero_of_not_mem hagain]
        · simp [hagain, hsame]
    · by_cases hagain : id ∈ rest
      · have hpos := List.count_pos_iff.mpr hagain
        rw [if_neg (by omega), if_pos hagain, List.nil_append]
      · rw [List.count_eq_zero_of_not_mem hagain, Nat.zero_add, if_neg hagain, List.filter_append,
          List.filter_singleton]
        by_cases hnone : left id = 0
        · simp [hnone]
        · simp [hnone]

/-- When a node is listed, counting down leads to the numbers of the longer listing, and the nodes
that are released join the queue. -/
theorem Frontier.foldl_countDown (hfrontier : graph.Frontier (id :: queue) listed)
    (h : graph.Coherent) :
    (graph.successors id).foldl countDown (graph.waiting listed, queue) =
      (graph.waiting (listed ++ [id]), queue ++ graph.released (listed ++ [id]) id) := by
  have hnew := hfrontier.notMem_head
  let left : NodeId → Nat := fun next => (graph.predecessors next).countP (· ∉ listed ++ [id])
  have hwaiting : ∀ next, graph.waiting listed next =
      (graph.node? next).map fun _ => (graph.successors id).count next + left next := by
    intro next
    rw [waiting, h.count_successors, ← countP_notMem_append_singleton _ hnew]
  have hcounts : ∀ next ∈ graph.successors id,
      graph.waiting listed next = some ((graph.successors id).count next + left next) := by
    intro next hnext
    obtain ⟨node, hn⟩ := Option.isSome_iff_exists.mp (h.mem_successors_iff.mp hnext).isSome
    rw [hwaiting, hn, Option.map_some]
  rw [Graph.foldl_countDown _ hcounts]
  refine Prod.ext (funext fun next => ?_) (congrArg (queue ++ ·) (List.filter_congr fun next _ => ?_))
  · have hlater : graph.waiting (listed ++ [id]) next = (graph.node? next).map fun _ => left next := rfl
    dsimp only
    split
    · rename_i hnext
      obtain ⟨node, hn⟩ := Option.isSome_iff_exists.mp (h.mem_successors_iff.mp hnext).isSome
      rw [hlater, hn, Option.map_some]
    · rename_i hnext
      rw [hlater, hwaiting, List.count_eq_zero_of_not_mem hnext]
      simp only [Nat.zero_add]
  · rw [Bool.eq_iff_iff, decide_eq_true_eq, List.countP_eq_zero, List.all_eq_true]
    refine forall_congr' fun source => imp_congr_right fun _ => ?_
    rw [decide_eq_true_eq, not_not, List.contains_iff_mem]

/-- Counting goes on as the listing does. -/
theorem Frontier.countFrom_eq (hfrontier : graph.Frontier queue listed) (h : graph.Coherent)
    (steps : Nat) :
    graph.countFrom steps (graph.waiting listed) queue listed = graph.listFrom steps queue listed := by
  induction steps generalizing queue listed with
  | zero => rw [countFrom, Graph.listFrom]
  | succ steps ih =>
    cases queue with
    | nil => rw [countFrom, Graph.listFrom] <;> simp
    | cons id rest =>
      rw [countFrom, Graph.listFrom, hfrontier.foldl_countDown h]
      exact ih (hfrontier.step h)

/-- Further steps do nothing. -/
theorem Frontier.listFrom_add (hfrontier : graph.Frontier queue listed) (h : graph.Coherent)
    (steps more : Nat) (hsteps : graph.nodes.size ≤ listed.length + steps) :
    graph.listFrom (steps + more) queue listed = graph.listFrom steps queue listed := by
  induction steps generalizing queue listed with
  | zero =>
    have hle := hfrontier.length_le
    rw [List.length_append] at hle
    have hnil : queue = [] := List.length_eq_zero_iff.mp (by omega)
    subst hnil
    cases more <;> rfl
  | succ steps ih =>
    cases queue with
    | nil =>
      rw [Nat.add_right_comm]
      rfl
    | cons id rest =>
      rw [Nat.add_right_comm, Graph.listFrom, Graph.listFrom]
      refine ih (hfrontier.step h) ?_
      rw [List.length_append, List.length_singleton]
      omega

/-- Counting finds the order in as many steps as there are nodes, and stops then. -/
theorem Coherent.orderByCounting_eq (h : graph.Coherent) {steps : Nat}
    (hsteps : graph.nodes.size ≤ steps) : graph.orderByCounting steps = graph.topologicalOrder := by
  have hcounts : graph.inDegree = graph.waiting [] := by
    funext id
    rw [h.inDegree_eq, waiting]
    simp
  have hroots : (graph.nodes.keys.filter fun id => graph.inDegree id = some 0) = graph.roots := by
    rw [OrderedMap.keys, List.filter_map]
    refine congrArg _ (List.filter_congr fun entry hentry => ?_)
    have hn : graph.node? entry.1 = some entry.2 :=
      (graph.nodes.get?_eq_some_iff entry.1 entry.2).mpr hentry
    rw [Function.comp_apply, inDegree, hn, Option.map_some, Bool.eq_iff_iff, decide_eq_true_eq,
      Option.some.injEq, List.countP_eq_zero, List.all_eq_true]
    simp
  have horder : graph.countFrom steps graph.inDegree
      (graph.nodes.keys.filter fun id => graph.inDegree id = some 0) [] =
        graph.listFrom graph.nodes.size graph.roots [] := by
    obtain ⟨more, rfl⟩ := Nat.exists_eq_add_of_le hsteps
    rw [hroots, hcounts, h.frontier_roots.countFrom_eq h,
      h.frontier_roots.listFrom_add h _ _ (by simp)]
  unfold orderByCounting topologicalOrder
  rw [horder]

end OpGraph.Graph
