import OpGraph.Proofs.View.Canonize

/-!
# Runs of passes, read by name

A run of a pass for poolings or gathers rewrites the nodes of one kind, one after another. While
one of them is rewritten the others stay as they are, so what the runs of several passes make of a
graph is what rewriting the names of all their nodes makes of its view; and the runs succeed exactly
if no axis of a gather is stuck at the start.
-/

namespace OpGraph

open Edit

variable {graph : Graph} {named : NodeId → Option String} {seen : View} {id : NodeId}
  {name : String} {reading : Reading} {kind : RawKind}

/-- Something is said of the names of nodes, and these are finitely many. -/
theorem Graph.Shows.bounded (h : graph.Shows named seen) : seen.Bounded := by
  refine (List.finite_toSet graph.names.keys).subset fun name hname => ?_
  rw [Set.mem_ofPred_eq, ← h.view_eq, h.coherent.registered.isSome_view] at hname
  exact (graph.names.mem_keys_iff name).mpr hname

/-! ### What is stuck -/

namespace View

/-- A stuck gather is stuck still after another node was rewritten. -/
theorem Bounded.stuckAt_foldl_rewrite (h : seen.Bounded) {owners : List String} (hname : name ∉ owners)
    (hstuck : seen.StuckAt name) : (owners.foldl View.rewrite seen).StuckAt name := by
  obtain ⟨reading, hseen, hreading⟩ := hstuck
  exact ⟨reading, (h.foldl_rewrite_of_isSome (by rw [hseen]; rfl) hname).trans hseen, hreading⟩

/-- A gather that is stuck after other nodes were rewritten was stuck before. -/
theorem Bounded.stuckAt_of_foldl_rewrite (h : seen.Bounded) {owners : List String}
    (hstuck : (owners.foldl View.rewrite seen).StuckAt name) : seen.StuckAt name := by
  obtain ⟨reading, hseen, hreading⟩ := hstuck
  have hkind : (owners.foldl View.rewrite seen).kindAt name = some .gather := by
    rw [kindAt, hseen, Option.bind_some, hreading.1]
  rw [h.kindAt_foldl_rewrite] at hkind
  split at hkind
  · cases hkind
  · rename_i hname
    obtain ⟨before, hbefore, _⟩ := exists_of_kindAt hkind
    have hsame := h.foldl_rewrite_of_isSome (by rw [hbefore]; rfl) hname
    exact ⟨reading, hsame.symm.trans hseen, hreading⟩

end View

/-! ### Turns -/

namespace RawKind

/-- A raw node is matched by the pass of its kind. -/
theorem stillMatches (h : graph.Shows named seen) (hname : named id = some name)
    (hkind : seen.kindAt name = some kind) :
    kind.pass.pattern.stillMatches graph ⟨[(kind.pattern.label, id)]⟩ = true := by
  obtain ⟨reading, hseen, hraw⟩ := View.exists_of_kindAt hkind
  obtain ⟨node, hn, _⟩ := h.exists_node hname
  refine (Pattern.stillMatches_of_isSingle kind.isSingle_pattern).mpr ⟨_, id, node, rfl, hn, ?_⟩
  rwa [kind.accepts_iff node (graph.feedName? id) (graph.isUsed id), h.reading_of_node? hname hseen hn]

/-- A turn rewrites its node, which is not stuck then. -/
theorem ensures_shows_turn (verify : Bool) (stats : PassStats) (hname : named id = some name)
    (hkind : seen.kindAt name = some kind) :
    Ensures (·.Shows named seen) (kind.pass.applyTo verify stats ⟨[(kind.pattern.label, id)]⟩)
      fun _ graph => ¬ seen.StuckAt name ∧ graph.Shows named (seen.rewrite name) := by
  intro graph next result h hrun
  obtain ⟨reading, hseen, hraw⟩ := View.exists_of_kindAt hkind
  rcases run_applyTo_eq_ok hrun with ⟨hstale, _⟩ | ⟨_, happly⟩
  · rw [stillMatches h hname hkind] at hstale
    cases hstale
  · obtain ⟨hfine, hdone⟩ := ensures_shows_apply hname hseen hraw _ _ _ h happly
    refine ⟨fun ⟨own, hown, hstuck⟩ => hfine ?_, hdone⟩
    rw [hseen, Option.some.injEq] at hown
    rwa [hown]

/-- A turn fails only if its node is stuck. -/
theorem failsOnly_shows_turn (verify : Bool) (stats : PassStats) (hname : named id = some name)
    (hkind : seen.kindAt name = some kind) :
    FailsOnly (·.Shows named seen) (kind.pass.applyTo verify stats ⟨[(kind.pattern.label, id)]⟩)
      fun _ => seen.StuckAt name := by
  intro graph error result h hrun
  obtain ⟨reading, hseen, hraw⟩ := View.exists_of_kindAt hkind
  obtain ⟨_, happly⟩ := kind.standard_pass.run_apply_eq_error h.coherent hrun
  exact ⟨reading, hseen, failsOnly_shows_apply hname hseen hraw _ _ _ h happly⟩

/-! ### Turns one after another -/

/-- The numbered nodes carry these names, which differ, and all are of one kind. -/
structure Queue (named : NodeId → Option String) (seen : View) (kind : RawKind) (ids : List NodeId)
    (names : List String) : Prop where
  /-- Each node carries its name. -/
  named : List.Forall₂ (fun id name => named id = some name) ids names
  /-- The names differ. -/
  nodup : names.Nodup
  /-- The nodes are of the kind. -/
  raw : ∀ name ∈ names, seen.kindAt name = some kind

/-- After the first node was rewritten the others are raw still. -/
theorem Queue.tail {ids : List NodeId} {names : List String} (hseen : seen.Bounded)
    (h : Queue named seen kind (id :: ids) (name :: names)) :
    Queue named (seen.rewrite name) kind ids names := by
  obtain ⟨hname, hnames⟩ := List.nodup_cons.mp h.nodup
  refine ⟨(List.forall₂_cons.mp h.named).2, hnames, fun other hother => ?_⟩
  have hne : other ≠ name := fun heq => hname (heq ▸ hother)
  rw [hseen.kindAt_rewrite, if_neg hne, h.raw other (List.mem_cons_of_mem name hother)]

/-- The matches of the pass at the numbered nodes. -/
def foundAt (kind : RawKind) (ids : List NodeId) : List Match :=
  ids.map fun id => ⟨[(kind.pattern.label, id)]⟩

/-- Turns one after another rewrite their nodes, none of which was stuck at the start. -/
theorem ensures_shows_turns {ids : List NodeId} {names : List String}
    (hqueue : Queue named seen kind ids names) (verify : Bool) (stats : PassStats) :
    Ensures (·.Shows named seen) ((kind.foundAt ids).foldlM (kind.pass.applyTo verify) stats)
      fun _ graph => (∀ name ∈ names, ¬ seen.StuckAt name) ∧
        graph.Shows named (names.foldl View.rewrite seen) := by
  induction ids generalizing seen names stats with
  | nil =>
    rw [List.forall₂_nil_left_iff.mp hqueue.named]
    exact ensures_pure fun graph h => ⟨fun name hname => absurd hname List.not_mem_nil, h⟩
  | cons id ids ih =>
    obtain ⟨name, rest, hname, _, rfl⟩ := List.forall₂_cons_left_iff.mp hqueue.named
    intro graph final result h hrun
    rw [foundAt, List.map_cons, List.foldlM_cons] at hrun
    obtain ⟨next, middle, hturn, hrun⟩ := run_bind_eq_ok.mp hrun
    obtain ⟨hfine, hmiddle⟩ := ensures_shows_turn verify stats hname
      (hqueue.raw name List.mem_cons_self) _ _ _ h hturn
    obtain ⟨hrest, hresult⟩ := ih (hqueue.tail h.bounded) next _ _ _ hmiddle hrun
    refine ⟨fun other hother hstuck => ?_, hresult⟩
    rcases List.mem_cons.mp hother with rfl | hlater
    · exact hfine hstuck
    · have hne : other ∉ [name] := fun hsame =>
        (List.nodup_cons.mp hqueue.nodup).1 (List.mem_singleton.mp hsame ▸ hlater)
      exact hrest other hlater (h.bounded.stuckAt_foldl_rewrite hne hstuck)

/-- Turns one after another fail only if something was stuck at the start. -/
theorem failsOnly_shows_turns {ids : List NodeId} {names : List String}
    (hqueue : Queue named seen kind ids names) (verify : Bool) (stats : PassStats) :
    FailsOnly (·.Shows named seen) ((kind.foundAt ids).foldlM (kind.pass.applyTo verify) stats)
      fun _ => ∃ name, seen.StuckAt name := by
  induction ids generalizing seen names stats with
  | nil => exact failsOnly_pure _
  | cons id ids ih =>
    obtain ⟨name, rest, hname, _, rfl⟩ := List.forall₂_cons_left_iff.mp hqueue.named
    have hkind := hqueue.raw name List.mem_cons_self
    intro graph error result h hrun
    rw [foundAt, List.map_cons, List.foldlM_cons] at hrun
    rcases run_bind_eq_error.mp hrun with hturn | ⟨next, middle, hturn, hrun⟩
    · exact ⟨name, failsOnly_shows_turn verify stats hname hkind _ _ _ h hturn⟩
    · obtain ⟨_, hmiddle⟩ := ensures_shows_turn verify stats hname hkind _ _ _ h hturn
      obtain ⟨other, hstuck⟩ := ih (hqueue.tail h.bounded) next _ _ _ hmiddle hrun
      have hlater : ([name].foldl View.rewrite seen).StuckAt other := hstuck
      exact ⟨other, h.bounded.stuckAt_of_foldl_rewrite hlater⟩

/-! ### Runs -/

/-- The pass finds the nodes of its kind. -/
theorem mem_candidates_iff (h : graph.Shows graph.nameOf? seen) (kind : RawKind) (id : NodeId) :
    id ∈ Pattern.candidates graph kind.pattern ↔
      ∃ name, graph.nameOf? id = some name ∧ seen.kindAt name = some kind := by
  have hcandidate : id ∈ Pattern.candidates graph kind.pattern ↔
      ∃ node, graph.node? id = some node ∧ kind.pattern.accepts node = true := by
    simp only [Pattern.candidates, List.mem_map, List.mem_filter, Prod.exists, exists_and_right,
      exists_eq_right, Graph.node?, OrderedMap.get?_eq_some_iff]
  have hreading : ∀ node name, graph.node? id = some node → graph.nameOf? id = some name →
      (kind.pattern.accepts node = true ↔ seen.kindAt name = some kind) := by
    intro node name hn hname
    have hseen := (h.reading?_eq hname).symm
    rw [Graph.reading?, Graph.bare?_of_node? hn, Option.map_some] at hseen
    rw [View.kindAt, hseen, Option.bind_some, ← h.reading_of_node? hname hseen hn]
    exact kind.accepts_iff node _ _
  rw [hcandidate]
  constructor
  · rintro ⟨node, hn, haccepts⟩
    have hname : graph.nameOf? id = some node.name := by rw [Graph.nameOf?, hn]; rfl
    exact ⟨node.name, hname, (hreading node node.name hn hname).mp haccepts⟩
  · rintro ⟨name, hname, hkind⟩
    obtain ⟨node, hn, _⟩ := h.exists_node hname
    exact ⟨node, hn, (hreading node name hn hname).mpr hkind⟩

/-- The nodes that the pass finds have different names, those of the nodes of its kind. -/
theorem exists_queue (h : graph.Shows graph.nameOf? seen) (kind : RawKind) :
    ∃ names, Queue graph.nameOf? seen kind (Pattern.candidates graph kind.pattern) names ∧
      ∀ name, name ∈ names ↔ seen.kindAt name = some kind := by
  have hnamed : ∀ id ∈ Pattern.candidates graph kind.pattern,
      graph.nameOf? id = some ((graph.nameOf? id).getD "") := fun id hid => by
    obtain ⟨name, hname, _⟩ := (mem_candidates_iff h kind id).mp hid
    rw [hname]
    rfl
  have hmem : ∀ name,
      name ∈ (Pattern.candidates graph kind.pattern).map (fun id => (graph.nameOf? id).getD "") ↔
        seen.kindAt name = some kind := by
    intro name
    rw [List.mem_map]
    constructor
    · rintro ⟨id, hid, rfl⟩
      obtain ⟨name, hname, hkind⟩ := (mem_candidates_iff h kind id).mp hid
      rwa [hname]
    · intro hkind
      obtain ⟨reading, hseen, _⟩ := View.exists_of_kindAt hkind
      have hsome := h.coherent.registered.isSome_view name
      rw [h.view_eq, hseen] at hsome
      obtain ⟨id, hid⟩ := Option.isSome_iff_exists.mp hsome.symm
      have hname := (h.coherent.registered.named name id).mp hid
      exact ⟨id, (mem_candidates_iff h kind id).mpr ⟨name, hname, hkind⟩, by rw [hname]; rfl⟩
  refine ⟨_, ⟨?_, ?_, fun name hname => (hmem name).mp hname⟩, hmem⟩
  · exact List.forall₂_map_right_iff.mpr (List.forall₂_same.mpr hnamed)
  · refine List.Nodup.map_on (fun id hid other hother heq => ?_)
      (graph.nodes.nodup_keys.sublist (List.filter_sublist.map Prod.fst))
    have hboth := (hnamed id hid).trans ((congrArg some heq).trans (hnamed other hother).symm)
    rw [hnamed other hother] at hboth
    have hfirst := (h.coherent.registered.named _ id).mpr hboth
    have hsecond := (h.coherent.registered.named _ other).mpr (hnamed other hother)
    exact Option.some.inj (hfirst.symm.trans hsecond)

/-- A run rewrites the nodes of its kind, none of which was stuck. -/
theorem ensures_shows_run (kind : RawKind) (verify : Bool) :
    Ensures (·.Shows named seen) (kind.pass.run verify) fun _ graph =>
      ∃ names : List String, names.Nodup ∧ (∀ name, name ∈ names ↔ seen.kindAt name = some kind) ∧
        (∀ name ∈ names, ¬ seen.StuckAt name) ∧ graph.Shows named (names.foldl View.rewrite seen) := by
  refine ensures_get_bind fun graph h start stats result hstart hrun => ?_
  subst hstart
  have hshows := h.coherent.shows
  rw [h.view_eq] at hshows
  obtain ⟨names, hqueue, hmem⟩ := exists_queue hshows kind
  rw [Pattern.findAll_of_isSingle kind.isSingle_pattern] at hrun
  obtain ⟨hfine, hresult⟩ := ensures_shows_turns hqueue verify _ _ _ _ hshows hrun
  exact ⟨names, hqueue.nodup, hmem, hfine, hresult.mono h.named⟩

/-- A run fails only if something is stuck. -/
theorem failsOnly_shows_run (kind : RawKind) (verify : Bool) :
    FailsOnly (·.Shows named seen) (kind.pass.run verify) fun _ => ∃ name, seen.StuckAt name := by
  refine failsOnly_get_bind fun graph h start error result hstart hrun => ?_
  subst hstart
  have hshows := h.coherent.shows
  rw [h.view_eq] at hshows
  obtain ⟨names, hqueue, _⟩ := exists_queue hshows kind
  rw [Pattern.findAll_of_isSingle kind.isSingle_pattern] at hrun
  exact failsOnly_shows_turns hqueue verify _ _ _ _ hshows hrun

end RawKind

end OpGraph
