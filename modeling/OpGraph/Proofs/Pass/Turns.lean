import OpGraph.Proofs.Pass.GatherMoved
import OpGraph.Proofs.PoolingOutputs

/-!
# Turns of a standard pass

A standard pass takes the nodes that meet its conditions one after another. Each of them still meets
the conditions when its turn comes, since a visit changes nothing but the names of the other nodes
that are there. So a run that succeeds is a sequence of visits, one for each of these nodes, and what
every visit preserves the run preserves. Nothing here depends on how nodes are connected.
-/

namespace OpGraph

open Edit

variable {graph middle result : Graph} {pass : Pass} {id other : NodeId} {ids : List NodeId}
  {names : List String} {node : Node} {verify : Bool} {stats next : PassStats}

namespace Pass

/-- The match that binds every label to one node, for patterns of a single label. -/
def matchOf (pass : Pass) (id : NodeId) : Match := ⟨pass.pattern.labels.map fun label => (label, id)⟩

/-- What the pass does with a node. -/
def visit (pass : Pass) (id : NodeId) : Edit Unit := pass.apply (pass.matchOf id)

/-- The node meets the conditions of the pass. -/
def accepts (pass : Pass) (node : Node) : Bool := pass.pattern.nodes.all (·.accepts node)

/-- The nodes that meet the conditions of the pass, in the order in which they were inserted. -/
def targets (pass : Pass) (graph : Graph) : List NodeId :=
  (graph.nodes.toList.filter fun entry => pass.accepts entry.2).map Prod.fst

/-- Visits of nodes, one after another, lead from one graph to another. Each node meets the conditions
of the pass when its turn comes, and the name that it has then is kept. -/
inductive Turns (pass : Pass) : List NodeId → List String → Graph → Graph → Prop where
  /-- There is no node left. -/
  | none {graph : Graph} : Turns pass [] [] graph graph
  /-- One node is visited, then the others. -/
  | turn {graph middle result : Graph} {id : NodeId} {node : Node} {ids : List NodeId}
      {names : List String} (found : graph.node? id = some node)
      (accepted : pass.accepts node = true) (visit : (pass.visit id).run graph = .ok () middle)
      (rest : Turns pass ids names middle result) :
      Turns pass (id :: ids) (node.name :: names) graph result

/-! ### Targets -/

theorem mem_targets_iff :
    id ∈ pass.targets graph ↔ ∃ node, graph.node? id = some node ∧ pass.accepts node = true := by
  simp only [targets, List.mem_map, List.mem_filter, Prod.exists, exists_and_right, exists_eq_right,
    Graph.node?, OrderedMap.get?_eq_some_iff]

/-- No node has two turns. -/
theorem nodup_targets (pass : Pass) (graph : Graph) : (pass.targets graph).Nodup :=
  graph.nodes.nodup_keys.sublist (List.filter_sublist.map Prod.fst)

/-- Where there is one label the match binds it. -/
theorem matchOf_of_isSingle {pattern : NodePattern} (hsingle : pass.pattern.IsSingle pattern)
    (id : NodeId) : pass.matchOf id = ⟨[(pattern.label, id)]⟩ := by
  simp only [matchOf, Pattern.labels, hsingle.1, List.map_cons, List.map_nil]

/-- Where there is one label its conditions are those of the pass. -/
theorem accepts_of_isSingle {pattern : NodePattern} (hsingle : pass.pattern.IsSingle pattern)
    (node : Node) : pass.accepts node = pattern.accepts node := by
  simp only [accepts, hsingle.1, List.all_cons, List.all_nil, Bool.and_true]

namespace Standard

variable (hpass : pass.Standard)
include hpass

/-- A match holds exactly if its node meets the conditions. -/
theorem stillMatches_matchOf : pass.pattern.stillMatches graph (pass.matchOf id) = true ↔
    ∃ node, graph.node? id = some node ∧ pass.accepts node = true := by
  obtain ⟨pattern, _, hsingle, _⟩ := hpass.exists_isSingle
  rw [Pattern.stillMatches_of_isSingle hsingle]
  simp only [matchOf_of_isSingle hsingle, accepts_of_isSingle hsingle]
  constructor
  · rintro ⟨_, _, bound, hsame, hbound, haccepts⟩
    cases hsame
    exact ⟨bound, hbound, haccepts⟩
  · rintro ⟨bound, hbound, haccepts⟩
    exact ⟨_, id, bound, rfl, hbound, haccepts⟩

/-- The matches are those of the nodes that meet the conditions. -/
theorem findAll_eq : pass.pattern.findAll graph = (pass.targets graph).map pass.matchOf := by
  obtain ⟨pattern, _, hsingle, _⟩ := hpass.exists_isSingle
  rw [Pattern.findAll_of_isSingle hsingle, funext (matchOf_of_isSingle hsingle)]
  simp only [targets, Pattern.candidates, accepts_of_isSingle hsingle]

/-- The anchor of a match is its node. -/
theorem anchorName_matchOf (hn : graph.node? id = some node) :
    (pass.matchOf id).anchorName graph = node.name := by
  obtain ⟨pattern, _, hsingle, _⟩ := hpass.exists_isSingle
  simp [Match.anchorName, Match.anchor?, matchOf_of_isSingle hsingle, hn]

/-- The conditions look at type and attributes alone. -/
theorem accepts_congr {now : Node} (htype : now.opType = node.opType)
    (hattributes : now.attributes = node.attributes) : pass.accepts now = pass.accepts node := by
  obtain ⟨pattern, _, hsingle, _⟩ := hpass.exists_isSingle
  rw [accepts_of_isSingle hsingle, accepts_of_isSingle hsingle]
  exact pattern.accepts_congr htype hattributes

end Standard

end Pass

/-! ### One visit -/

/-- All nodes but one are still there, with another name at most. -/
def Graph.Remains (graph : Graph) (id : NodeId) (result : Graph) : Prop :=
  ∀ other bare, other ≠ id → graph.bare? other = some bare →
    ∃ now, result.bare? other = some now ∧ now = { bare with name := now.name }

/-- Nodes that are what they were are still there. -/
theorem Graph.remains_of_node? (h : ∀ other node, other ≠ id → graph.node? other = some node →
    result.node? other = some node) : graph.Remains id result := by
  intro other bare hother hbare
  obtain ⟨node, hn, rfl⟩ := Option.map_eq_some_iff.mp hbare
  exact ⟨node.bare, Graph.bare?_of_node? (h other node hother hn), rfl⟩

theorem remains_of_run_resolveMarker (h : graph.Coherent)
    (hrun : (resolveMarker ⟨[("fake", id)]⟩).run graph = .ok () result) : graph.Remains id result := by
  obtain ⟨own, marker, source, producer, hown, _, _, _, hresolved⟩ := resolved_of_run h hrun
  cases hown
  cases hresolved with
  | bypassed _ hbypassed => exact fun other bare hother hbare => hbypassed.exists_after hother hbare
  | identity _ hchanged =>
    refine Graph.remains_of_node? fun other node hother hn => ?_
    rw [hchanged, Graph.node?_modifyNode, if_neg hother, hn]

theorem Pass.Recasts.remains {make : Node → Node} (hmake : pass.Recasts make) (h : graph.Coherent)
    (hn : graph.node? id = some node)
    (hrun : (pass.apply ⟨[("pool", id)]⟩).run graph = .ok () result) : graph.Remains id result := by
  obtain ⟨hspares, _⟩ := hmake.capped_of_visit h hn hrun
  exact Graph.remains_of_node? fun other node hother hother' =>
    hspares.node other node hother' (by simpa using hother)

theorem remains_of_run_canonizeGather (h : graph.Coherent) (hn : graph.node? id = some node)
    (hrun : (canonizeGather ⟨[("gather", id)]⟩).run graph = .ok () result) : graph.Remains id result := by
  obtain ⟨axis, _, _, rfl⟩ := eq_moveAxis_of_run_canonizeGather h hn hrun
  refine Graph.remains_of_node? fun other node hother hn' => ?_
  rw [h.node?_moveAxis hn, if_neg hother, if_neg (h.ne_nextNode hn'), hn']

namespace Pass.Standard

variable (hpass : pass.Standard)
include hpass

/-- A standard pass visits nodes as one of the registry does. -/
theorem exists_visit_eq : ∃ builtIn ∈ PassRegistry.standard, pass.visit id = builtIn.visit id := by
  obtain ⟨builtIn, hmem, hpattern, happly⟩ := hpass.exists_mem
  exact ⟨builtIn, hmem, by rw [visit, visit, matchOf, matchOf, hpattern, happly]⟩

/-- The turn of a node that meets the conditions is a visit, which is counted under its name. -/
theorem run_visit_of_run_applyTo (hn : graph.node? id = some node)
    (haccepts : pass.accepts node = true)
    (hrun : (pass.applyTo verify stats (pass.matchOf id)).run graph = .ok next result) :
    (pass.visit id).run graph = .ok () result ∧ next = stats.record node.name := by
  have hholds := hpass.stillMatches_matchOf.mpr ⟨node, hn, haccepts⟩
  rcases run_applyTo_eq_ok hrun with ⟨hstale, _⟩ | ⟨_, happly⟩
  · rw [hholds] at hstale
    cases hstale
  refine ⟨happly, ?_⟩
  unfold applyTo at hrun
  obtain ⟨_, _, hget, hrun⟩ := run_bind_eq_ok.mp hrun
  cases hget
  rw [if_neg (by rw [hholds]; decide), hpass.anchorName_matchOf hn] at hrun
  obtain ⟨_, _, _, hrun⟩ := run_bind_eq_ok.mp hrun
  obtain ⟨_, _, _, hrun⟩ := run_bind_eq_ok.mp hrun
  split at hrun
  · cases hrun
  · cases hrun
    rfl

variable (h : graph.Coherent) (hn : graph.node? id = some node)
include h hn

/-- A visit leaves the other nodes there, with another name at most. -/
theorem remains_of_visit (hrun : (pass.visit id).run graph = .ok () result) :
    graph.Remains id result := by
  obtain ⟨builtIn, hmem, hvisit⟩ := hpass.exists_visit_eq
  rw [hvisit] at hrun
  simp only [PassRegistry.standard, List.mem_cons, List.not_mem_nil, or_false] at hmem
  rcases hmem with rfl | rfl | rfl | rfl
  · exact remains_of_run_resolveMarker h hrun
  · exact recasts_maxPool.remains h hn hrun
  · exact recasts_avgPool.remains h hn hrun
  · exact remains_of_run_canonizeGather h hn hrun

/-- A visit of a node that meets the conditions leaves a graph behind whose records agree. -/
theorem coherent_of_visit (haccepts : pass.accepts node = true)
    (hrun : (pass.visit id).run graph = .ok () result) : result.Coherent := by
  obtain ⟨_, _, _, hrewritten⟩ :=
    hpass.rewritten_of_run h (hpass.stillMatches_matchOf.mpr ⟨node, hn, haccepts⟩) hrun
  exact hrewritten.coherent

end Pass.Standard

/-! ### All visits -/

/-- Other nodes meet the conditions of a standard pass after a visit as they did before. -/
theorem Graph.Remains.exists_accepted (h : graph.Remains id result) (hpass : pass.Standard)
    (hother : other ≠ id) (haccepted : ∃ node, graph.node? other = some node ∧ pass.accepts node = true) :
    ∃ node, result.node? other = some node ∧ pass.accepts node = true := by
  obtain ⟨node, hn, haccepts⟩ := haccepted
  obtain ⟨bare, hbare, hsame⟩ := h other node.bare hother (Graph.bare?_of_node? hn)
  obtain ⟨now, hnow, rfl⟩ := Option.map_eq_some_iff.mp hbare
  refine ⟨now, hnow, ?_⟩
  rw [← haccepts]
  exact hpass.accepts_congr (congrArg (·.opType) hsame) (congrArg (·.attributes) hsame)

namespace Pass.Standard

variable (hpass : pass.Standard) (h : graph.Coherent)
include hpass h

/-- Turns of different nodes that meet the conditions are visits of all of them. By induction on the
nodes that are left: a visit takes nothing away from those that come after it. -/
theorem turns_of_run_turns (hnodup : ids.Nodup)
    (haccepted : ∀ id ∈ ids, ∃ node, graph.node? id = some node ∧ pass.accepts node = true)
    (hrun : ((ids.map pass.matchOf).foldlM (pass.applyTo verify) stats).run graph = .ok next result) :
    ∃ names, pass.Turns ids names graph result ∧ next = { stats with
      applied := stats.applied + ids.length
      anchors := stats.anchors ++ names } := by
  induction ids generalizing graph stats with
  | nil =>
    cases hrun
    exact ⟨[], .none, by rw [List.append_nil]; rfl⟩
  | cons first rest ih =>
    obtain ⟨hfirst, hrest⟩ := List.nodup_cons.mp hnodup
    obtain ⟨node, hn, haccepts⟩ := haccepted first List.mem_cons_self
    rw [List.map_cons, List.foldlM_cons] at hrun
    obtain ⟨_, middle, hturn, hrun⟩ := run_bind_eq_ok.mp hrun
    obtain ⟨hvisit, rfl⟩ := hpass.run_visit_of_run_applyTo hn haccepts hturn
    have hremains := hpass.remains_of_visit h hn hvisit
    obtain ⟨names, hturns, rfl⟩ := ih (hpass.coherent_of_visit h hn haccepts hvisit) hrest
      (fun id hmem => hremains.exists_accepted hpass (fun heq => hfirst (heq ▸ hmem))
        (haccepted id (List.mem_cons_of_mem first hmem))) hrun
    refine ⟨node.name :: names, .turn hn haccepts hvisit hturns, ?_⟩
    simp only [PassStats.record, List.length_cons, List.append_assoc, List.singleton_append,
      PassStats.mk.injEq, true_and, and_true]
    omega

/-- A run that succeeds visits all nodes that meet the conditions at the start. -/
theorem turns_of_run (hrun : (pass.run verify).run graph = .ok stats result) :
    pass.Turns (pass.targets graph) stats.anchors graph result ∧ stats =
      ⟨1, (pass.targets graph).length, (pass.targets graph).length, 0, stats.anchors⟩ := by
  obtain ⟨_, _, hget, hrun⟩ := run_bind_eq_ok.mp hrun
  cases hget
  rw [hpass.findAll_eq] at hrun
  obtain ⟨names, hturns, rfl⟩ := hpass.turns_of_run_turns h (nodup_targets pass graph)
    (fun id hmem => mem_targets_iff.mp hmem) hrun
  refine ⟨hturns, ?_⟩
  simp [PassStats.empty]

end Pass.Standard

/-- What every visit preserves of a graph whose records agree a sequence of visits preserves. -/
theorem Pass.Turns.preserves {P : Graph → Prop} (hturns : pass.Turns ids names graph result)
    (hpass : pass.Standard) (h : graph.Coherent) (hP : P graph)
    (hvisit : ∀ {graph result : Graph} {id : NodeId} {node : Node}, graph.Coherent →
      graph.node? id = some node → P graph → (pass.visit id).run graph = .ok () result → P result) :
    result.Coherent ∧ P result := by
  induction hturns with
  | none => exact ⟨h, hP⟩
  | turn found accepted visit _ ih =>
    exact ih (hpass.coherent_of_visit h found accepted visit) (hvisit h found hP visit)

end OpGraph
