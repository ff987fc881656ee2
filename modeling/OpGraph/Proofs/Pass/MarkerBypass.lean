import OpGraph.Proofs.Edit.Failure
import OpGraph.Proofs.Pass.OutputMarker

/-!
# How a bypass comes to a halt

A marker is bypassed in two stages. First it is unplugged: its consumers are fed by its source, and
its feed is cut off. This cannot go wrong, since all these connections exist. Then the marker takes a
temporary name, the producer takes over its own, and the marker is removed. This comes to a halt if
the temporary name is taken, and it does so at the removal if something holds the marker, that is if
another of its input ports is fed or if it fed more than itself. What was unplugged stays so.
-/

namespace OpGraph

open Edit

variable {graph middle result : Graph} {id other : NodeId} {marker : Node} {source port : PortRef}
  {feed : ConnectionId} {ends : Connection} {error : GraphError} {E : GraphError → Prop}

/-- Name that a marker bears while it is bypassed. -/
def temporaryName (name : String) : String := s!"{name}/TBD"

theorem temporaryName_ne (name : String) : temporaryName name ≠ name := by
  intro h
  have hlength := congrArg String.length h
  change (name ++ "/TBD").length = name.length at hlength
  rw [String.length_append] at hlength
  have hsuffix : "/TBD".length = 4 := rfl
  omega

/-! ### Unplugging -/

/-- A marker was unplugged: its feed is cut off, and what it fed is fed by its source. -/
structure Unplugged (graph : Graph) (id : NodeId) (feed : ConnectionId) (source : PortRef)
    (result : Graph) : Prop where
  /-- The records agree. -/
  coherent : result.Coherent
  /-- The connection that fed the marker is gone, and the other slots hold what they held. -/
  inputConnection : ∀ node index, result.inputConnection? node index =
    if graph.inputConnection? node index = some feed then none else graph.inputConnection? node index
  /-- Connections that started at the marker start at its source. -/
  source : ∀ connection, result.source? connection =
    if connection = feed then none else (graph.source? connection).map (.redirect id source)

namespace Unplugged

variable (h : Unplugged graph id feed source result)
include h

/-- The feed of the marker is not in the table any more. -/
theorem connection?_feed : result.connection? feed = none := by
  have hfeed := h.source feed
  rw [if_pos rfl, Graph.source?] at hfeed
  exact Option.map_eq_none_iff.mp hfeed

/-- A graph in which the feed of a marker is cut off is another one. -/
theorem ne (hends : graph.connection? feed = some ends) : result ≠ graph := by
  rintro rfl
  rw [h.connection?_feed] at hends
  cases hends

/-- A change that touches neither slots nor connections leaves the marker unplugged. -/
theorem of_same (hlater : middle.Coherent)
    (hslots : ∀ node index, middle.inputConnection? node index = result.inputConnection? node index)
    (hsources : ∀ connection, middle.source? connection = result.source? connection) :
    Unplugged graph id feed source middle :=
  ⟨hlater, fun node index => (hslots node index).trans (h.inputConnection node index),
    fun connection => (hsources connection).trans (h.source connection)⟩

end Unplugged

/-- Connections that exist can be moved to an output port that exists. -/
theorem failsOnly_rewireSources {connections : List ConnectionId} (hdir : port.direction = .output) :
    FailsOnly (fun graph => graph.HasPort port ∧
        ∀ connection ∈ connections, (graph.connection? connection).isSome = true)
      (connections.forM fun connection => rewireSource connection port) E := by
  refine failsOnly_forM (fun connection hmem => failsOnly_of_exists fun graph h => ?_)
    fun connection _ graph _ result h hrun => ?_
  · obtain ⟨ends, hends⟩ := Option.isSome_iff_exists.mp (h.2 connection hmem)
    exact ⟨(), _, run_rewireSource_eq_ok.mpr ⟨ends, hends, hdir, h.1, rfl⟩⟩
  · obtain ⟨ends, _, _, _, rfl⟩ := run_rewireSource_eq_ok.mp hrun
    split
    · exact h
    · refine ⟨?_, fun other hother => ?_⟩
      · obtain ⟨bare, hbare, hlt⟩ := Graph.hasPort_iff_bare?.mp h.1
        exact Graph.hasPort_iff_bare?.mpr ⟨bare, by rw [Graph.bare?_moveSource, hbare], hlt⟩
      · rw [Graph.connection?_moveSource]
        have hsome := h.2 other hother
        split
        · rwa [Option.isSome_map]
        · exact hsome

/-- A marker is unplugged once its source feeds its consumers and its feed is cut off. -/
theorem unplugged_of_resourced {rewired : Graph} {own : Connection} (h : graph.Coherent)
    (hn : graph.node? id = some marker) (hrewired : rewired.Coherent)
    (hmoved : Resourced graph (marker.outputs.flatMap (·.connections)) source rewired)
    (hown : rewired.connection? feed = some own) :
    Unplugged graph id feed source (rewired.eraseConnection feed own) := by
  have hend : rewired.destination? feed = some own.destination := by rw [Graph.destination?, hown]; rfl
  have hinput := hrewired.linked.destination_input feed own.destination hend
  refine ⟨hrewired.change (.eraseConnection hown), fun node index => ?_, fun connection => ?_⟩
  · rw [Graph.inputConnection?_eraseConnection (hrewired.linked.hasPort_destination hend) hinput,
      ← hmoved.inputConnection]
    refine if_congr ?_ rfl rfl
    rw [hrewired.linked.feed_iff, hend, PortRef.eq_input hinput]
    simp [PortRef.input, eq_comm]
  · rw [Graph.source?_eraseConnection, hmoved.source]
    refine if_congr Iff.rfl rfl ?_
    simp only [h.mem_outgoing_iff hn]
    cases hsource : graph.source? connection with
    | none => simp
    | some port => by_cases hport : port.node = id <;> simp [hport, PortRef.redirect]

/-- The second stage of a bypass: a node takes over the name of the marker, which is removed. -/
def handName (id : NodeId) (name : String) (producer : NodeId) : Edit Unit := do
  renameNode id (temporaryName name)
  renameNode producer name
  discard (removeNode id .strict)

/-- The first stage of a bypass succeeds, and the second one decides. -/
theorem run_bypassMarker (h : graph.Coherent) (hn : graph.node? id = some marker)
    (hends : graph.connection? feed = some ends) :
    ∃ middle, Unplugged graph id feed ends.source middle ∧
      (∀ other, middle.bare? other = graph.bare? other) ∧
        (bypassMarker id marker feed ends.source).run graph =
          (handName id marker.name ends.source.node).run middle := by
  have hstart : graph.source? feed = some ends.source := by rw [Graph.source?, hends]; rfl
  have hall : ∀ connection ∈ marker.outputs.flatMap (·.connections),
      (graph.connection? connection).isSome = true := fun connection hmem => by
    obtain ⟨_, hsource, _⟩ := (h.mem_outgoing_iff hn connection).mp hmem
    rw [← Option.isSome_map (f := Connection.source), ← Graph.source?, hsource]
    rfl
  obtain ⟨_, rewired, hrewire⟩ := (failsOnly_rewireSources
    (h.linked.source_output _ _ hstart)).exists_run ⟨h.linked.hasPort_source hstart, hall⟩
  have hmoved := resourced_of_run hrewire
  have hrewired : rewired.Coherent := by
    have hchanges : Keeps graph.Changes ((marker.outputs.flatMap (·.connections)).forM
        fun connection => rewireSource connection ends.source) :=
      keeps_forM fun _ _ => changes_rewireSource h
    exact h.changes (hchanges.ensures graph _ _ .refl hrewire)
  obtain ⟨own, hown⟩ : ∃ own, rewired.connection? feed = some own := by
    have hsource := hmoved.source feed
    rw [hstart, ite_self, Graph.source?] at hsource
    obtain ⟨own, hown, _⟩ := Option.map_eq_some_iff.mp hsource
    exact ⟨own, hown⟩
  have hcut : (discard (disconnect feed)).run rewired = .ok ⟨⟩ (rewired.eraseConnection feed own) :=
    run_discard_eq_ok.mpr ⟨own, run_disconnect_eq_ok.mpr ⟨hown, rfl⟩⟩
  refine ⟨rewired.eraseConnection feed own, unplugged_of_resourced h hn hrewired hmoved hown,
    fun other => ?_, ?_⟩
  · rw [Graph.bare?_eraseConnection, hmoved.bare]
  · unfold bypassMarker
    rw [EStateM.run_bind, hrewire]
    change (discard (disconnect feed) >>= fun _ => handName id marker.name ends.source.node).run
      rewired = _
    rw [EStateM.run_bind, hcut]

/-! ### Handing over the name -/

/-- A renaming neither adds nor removes nodes. -/
theorem Renamed.isSome_node? {name : String} (h : Renamed graph id name result) (other : NodeId) :
    (result.node? other).isSome = (graph.node? other).isSome := by
  rw [← Graph.isSome_bare?, ← Graph.isSome_bare?, h.bare]
  split
  · rw [Option.isSome_map]
  · rfl

/-- Names of nodes depend on the bare nodes alone. -/
theorem Graph.Coherent.idOf?_congr {changed : Graph} (h : graph.Coherent) (h' : changed.Coherent)
    (hbare : ∀ id, changed.bare? id = graph.bare? id) (name : String) :
    changed.idOf? name = graph.idOf? name := by
  refine Option.ext fun id => ?_
  rw [h.registered.named, h'.registered.named, nameOf?_eq_bare?, nameOf?_eq_bare?, hbare]

/-- A node that exists can be renamed unless the name is taken. -/
theorem taken_of_run_renameNode {name : String} (hn : graph.node? id = some marker)
    (hrun : (renameNode id name).run graph = .error error result) :
    marker.name ≠ name ∧ (graph.idOf? name).isSome = true ∧
      error = .internal (.nameTaken marker.name name) := by
  unfold renameNode at hrun
  replace hrun := run_of_run_check_bind hrun (graph.requireNode_eq_ok_iff.mpr hn)
  rcases run_bind_eq_error.mp hrun with hget | ⟨_, _, hget, hrun⟩
  · cases hget
  cases hget
  by_cases hname : marker.name = name
  · rw [if_pos hname] at hrun
    cases hrun
  rw [if_neg hname] at hrun
  cases htaken : graph.names.contains name with
  | false =>
    rw [htaken] at hrun
    cases hrun
  | true =>
    rw [htaken] at hrun
    cases hrun
    refine ⟨hname, ?_, rfl⟩
    rw [Option.isSome_iff_ne_none]
    intro hfree
    rw [(graph.names.contains_eq_false_iff name).mpr hfree] at htaken
    cases htaken

/-- A node can take another name only if it is free. -/
theorem free_of_run_renameNode {name : String} {value : Unit} (hn : graph.node? id = some marker)
    (hname : name ≠ marker.name) (hrun : (renameNode id name).run graph = .ok value result) :
    graph.idOf? name = none := by
  obtain ⟨node, hnode, ⟨hsame, _⟩ | ⟨_, hfree, _⟩⟩ := run_renameNode_eq_ok.mp hrun
  · cases hn.symm.trans hnode
    exact absurd hsame.symm hname
  · exact hfree

/-- A renaming touches neither slots nor connections. -/
theorem kept_of_run_renameNode {name : String} {value : Unit} (h : graph.Coherent)
    (hrun : (renameNode id name).run graph = .ok value result) :
    result.Coherent ∧
      (∀ node index, result.inputConnection? node index = graph.inputConnection? node index) ∧
        ∀ connection, result.source? connection = graph.source? connection := by
  refine ⟨h.changes ((changes_renameNode name h).ensures graph _ _ .refl hrun), ?_⟩
  obtain ⟨_, _, ⟨_, rfl⟩ | ⟨_, _, rfl⟩⟩ := run_renameNode_eq_ok.mp hrun
  · exact ⟨fun _ _ => rfl, fun _ => rfl⟩
  · exact ⟨fun node index => Graph.inputConnection?_rename _ _ node _ _ index, fun _ => rfl⟩

/-- After two renamings the later name counts, also where both are of one node. -/
theorem bare?_of_run_renames {first second : String} {value value' : Unit}
    (hfirst : (renameNode id first).run graph = .ok value middle)
    (hsecond : (renameNode other second).run middle = .ok value' result) (own : NodeId) :
    result.bare? own = (graph.bare? own).map fun bare => { bare with
      name := if own = other then second else if own = id then first else bare.name } := by
  rw [(renamed_of_run hsecond).bare, (renamed_of_run hfirst).bare]
  cases graph.bare? own with
  | none => simp
  | some bare =>
    by_cases hown : own = other
    · simp only [if_pos hown]
      split <;> rfl
    · simp only [if_neg hown]
      split <;> rfl

/-- Once a node was renamed nobody has its old name. -/
theorem idOf?_of_run_renameNode {name : String} {value : Unit} (h : graph.Coherent)
    (hn : graph.node? id = some marker) (hname : name ≠ marker.name)
    (hrun : (renameNode id name).run graph = .ok value result) : result.idOf? marker.name = none := by
  have hresult := (kept_of_run_renameNode h hrun).1
  have hrenamed := renamed_of_run hrun
  refine Option.eq_none_iff_forall_ne_some.mpr fun other hother => ?_
  rw [hresult.registered.named, Graph.nameOf?_eq_bare?, hrenamed.bare] at hother
  split at hother
  · rename_i hsame
    rw [hsame, Graph.bare?_of_node? hn] at hother
    exact hname (Option.some.inj hother)
  · rename_i hdifferent
    rw [← Graph.nameOf?_eq_bare?, ← h.registered.named] at hother
    have hown : graph.idOf? marker.name = some id := by
      rw [h.registered.named, Graph.nameOf?, hn]
      rfl
    rw [hown] at hother
    exact hdifferent (Option.some.inj hother).symm

/-- A node is not removed strictly while something is connected to it. -/
theorem run_removeNode_strict_of_attached (hn : graph.node? id = some marker)
    (hattached : marker.connectionIds ≠ []) : (removeNode id .strict).run graph =
      .error (.danglingConnection marker.name marker.connectionIds.length) graph := by
  refine run_bind_eq_error.mpr (.inr ⟨marker, graph, run_requireNode_of_some hn, ?_⟩)
  rw [if_pos ⟨rfl, hattached⟩]
  rfl

/-- What is left of a graph when a marker could not hand over its name. -/
inductive Halted (graph : Graph) (id : NodeId) (name : String) (producer : NodeId)
    (error : GraphError) (result : Graph) : Prop where
  /-- The temporary name is taken, and nobody got another name. -/
  | taken (taken : (graph.idOf? (temporaryName name)).isSome = true)
      (error : error = .internal (.nameTaken name (temporaryName name)))
      (bare : ∀ other, result.bare? other = graph.bare? other)
  /-- Something is connected to the marker, which has the temporary name unless it is the producer
  itself, and the producer has its name. -/
  | held (now : Node) (free : graph.idOf? (temporaryName name) = none)
      (marker : result.node? id = some now) (attached : now.connectionIds ≠ [])
      (error : error = .danglingConnection now.name now.connectionIds.length)
      (bare : ∀ other, result.bare? other = (graph.bare? other).map fun bare => { bare with
        name := if other = producer then name
          else if other = id then temporaryName name else bare.name })

/-- The handing over of a name comes to a halt at the temporary name or at the removal. -/
theorem halted_of_run_handName {name : String} (h : graph.Coherent) (hn : graph.node? id = some marker)
    (hname : marker.name = name) (hproducer : (graph.node? other).isSome = true)
    (hrun : (handName id name other).run graph = .error error result) :
    Halted graph id name other error result ∧ result.Coherent ∧
      (∀ node index, result.inputConnection? node index = graph.inputConnection? node index) ∧
        ∀ connection, result.source? connection = graph.source? connection := by
  subst hname
  rcases run_bind_eq_error.mp hrun with hfree | ⟨_, freed, hfree, hrun⟩
  · obtain ⟨_, htaken, herror⟩ := taken_of_run_renameNode hn hfree
    cases atomic_renameNode graph error result hfree
    exact ⟨.taken htaken herror fun _ => rfl, h, fun _ _ => rfl, fun _ => rfl⟩
  obtain ⟨hfreed, hslots, hsources⟩ := kept_of_run_renameNode h hfree
  have hthere := (renamed_of_run hfree).isSome_node?
  rcases run_bind_eq_error.mp hrun with hgive | ⟨_, given, hgive, hrun⟩
  · obtain ⟨node, hnode⟩ := Option.isSome_iff_exists.mp ((hthere other).trans hproducer)
    obtain ⟨_, htaken, _⟩ := taken_of_run_renameNode hnode hgive
    rw [idOf?_of_run_renameNode h hn (temporaryName_ne _) hfree] at htaken
    cases htaken
  obtain ⟨hgiven, hslots', hsources'⟩ := kept_of_run_renameNode hfreed hgive
  obtain ⟨now, hnow⟩ : ∃ now, given.node? id = some now := by
    refine Option.isSome_iff_exists.mp ?_
    rw [(renamed_of_run hgive).isSome_node?, hthere, hn]
    rfl
  by_cases hattached : now.connectionIds = []
  · have hremove : (discard (removeNode id .strict)).run given = .ok ⟨⟩ (given.eraseNode id now.name) :=
      run_discard_eq_ok.mpr ⟨now, run_removeNode_strict_eq_ok.mpr ⟨hnow, hattached, rfl⟩⟩
    rw [hremove] at hrun
    cases hrun
  have hremove : (discard (removeNode id .strict)).run given =
      .error (.danglingConnection now.name now.connectionIds.length) given := by
    change (removeNode id .strict >>= fun _ => pure PUnit.unit).run given = _
    exact run_bind_eq_error.mpr (.inl (run_removeNode_strict_of_attached hnow hattached))
  rw [hremove] at hrun
  cases hrun
  have hunused := free_of_run_renameNode hn (temporaryName_ne marker.name) hfree
  exact ⟨.held now hunused hnow hattached rfl (bare?_of_run_renames hfree hgive), hgiven,
    fun node index => (hslots' node index).trans (hslots node index),
    fun connection => (hsources' connection).trans (hsources connection)⟩

/-- A graph with the same bare nodes comes to the same halt. -/
theorem Halted.of_same_bare {name : String} (h : Halted middle id name other error result)
    (hgraph : graph.Coherent) (hmiddle : middle.Coherent)
    (hbare : ∀ own, middle.bare? own = graph.bare? own) : Halted graph id name other error result := by
  have hnames := hgraph.idOf?_congr hmiddle hbare (temporaryName name)
  cases h with
  | taken htaken herror hsame =>
    exact .taken (hnames ▸ htaken) herror fun own => (hsame own).trans (hbare own)
  | held now hfree hmarker hattached herror hchanged =>
    refine .held now (hnames ▸ hfree) hmarker hattached herror fun own => ?_
    rw [hchanged, hbare]

/-! ### What holds a marker -/

/-- Another input port of the marker is fed, or the marker is its own source and fed more than itself. -/
def Graph.Held (graph : Graph) (id : NodeId) (feed : ConnectionId) (source : PortRef) : Prop :=
  (∃ index, index ≠ 0 ∧ (graph.inputConnection? id index).isSome = true) ∨
    source.node = id ∧ ∃ connection port, connection ≠ feed ∧
      graph.source? connection = some port ∧ port.node = id

/-- Something is connected to an unplugged marker exactly if something holds it. -/
theorem Unplugged.attached_iff_held (h : Unplugged graph id feed source result) (hgraph : graph.Coherent)
    (hfeed : graph.inputConnection? id 0 = some feed) (hsource : graph.source? feed = some source)
    (hn : result.node? id = some marker) : marker.connectionIds ≠ [] ↔ graph.Held id feed source := by
  have hslots : ∀ index connection, result.inputConnection? id index = some connection ↔
      index ≠ 0 ∧ graph.inputConnection? id index = some connection := by
    intro index connection
    rw [h.inputConnection]
    by_cases hindex : index = 0
    · simp [hindex, hfeed]
    · have hother : graph.inputConnection? id index ≠ some feed := fun hsame => by
        have hfirst := (hgraph.linked.feed_iff id 0 feed).mp hfeed
        rw [(hgraph.linked.feed_iff id index feed).mp hsame] at hfirst
        exact hindex (congrArg PortRef.index (Option.some.inj hfirst))
      simp [hindex, hother]
  constructor
  · intro hne
    obtain ⟨connection, hmem⟩ := List.exists_mem_of_ne_nil _ hne
    rcases (h.coherent.linked.mem_connectionIds hn).mp hmem with ⟨index, hend⟩ | ⟨index, hstart⟩
    · obtain ⟨hindex, hslot⟩ :=
        (hslots index connection).mp ((h.coherent.linked.feed_iff id index connection).mpr hend)
      exact .inl ⟨index, hindex, by rw [hslot]; rfl⟩
    · rw [h.source] at hstart
      split at hstart
      · cases hstart
      rename_i hother
      obtain ⟨port, hport, hredirect⟩ := Option.map_eq_some_iff.mp hstart
      have hown : port.node = id := by
        by_contra helse
        rw [PortRef.redirect, if_neg helse] at hredirect
        exact helse (congrArg PortRef.node hredirect)
      rw [PortRef.redirect, if_pos hown] at hredirect
      exact .inr ⟨congrArg PortRef.node hredirect, connection, port, hother, hport, hown⟩
  · rintro (⟨index, hindex, hsome⟩ | ⟨hself, connection, port, hother, hport, hown⟩) hnil
    · obtain ⟨connection, hslot⟩ := Option.isSome_iff_exists.mp hsome
      have hend := (h.coherent.linked.feed_iff id index connection).mp
        ((hslots index connection).mpr ⟨hindex, hslot⟩)
      have hmem := (h.coherent.linked.mem_connectionIds hn).mpr (.inl ⟨index, hend⟩)
      rw [hnil] at hmem
      exact absurd hmem List.not_mem_nil
    · have hstart : result.source? connection = some (.output id source.index) := by
        rw [h.source, if_neg hother, hport, Option.map_some, PortRef.redirect, if_pos hown,
          PortRef.eq_output (hgraph.linked.source_output feed source hsource), hself]
        rfl
      have hmem := (h.coherent.linked.mem_connectionIds hn).mpr (.inr ⟨_, hstart⟩)
      rw [hnil] at hmem
      exact absurd hmem List.not_mem_nil

/-! ### The resolution -/

/-- Without a feed at its first input port a marker cannot be resolved, and nothing happens. -/
theorem run_resolveMarker_of_unfed (hn : graph.node? id = some marker)
    (hunfed : graph.inputConnection? id 0 = none) : (resolveMarker ⟨[("fake", id)]⟩).run graph =
      .error (.validationFailed (.markerWithoutProducer marker.name)) graph := by
  have hslot : markerFeed id marker graph =
      .error (.validationFailed (.markerWithoutProducer marker.name)) := by
    unfold markerFeed
    rw [hunfed]
  refine run_bind_eq_error.mpr (.inr ⟨id, graph, rfl, run_bind_eq_error.mpr (.inr ⟨marker, graph,
    run_requireNode_of_some hn, run_bind_eq_error.mpr (.inl ?_)⟩)⟩)
  rw [run_check, hslot]

/-- With such a feed the number of outputs that the producer uses decides. -/
theorem run_resolveMarker_of_fed {producer : Node} (hn : graph.node? id = some marker)
    (hfeed : graph.inputConnection? id 0 = some feed) (hends : graph.connection? feed = some ends)
    (hproducer : graph.node? ends.source.node = some producer) :
    (resolveMarker ⟨[("fake", id)]⟩).run graph =
      (if producer.usedOutputs = 1 then bypassMarker id marker feed ends.source
        else setOpType id "Identity").run graph := by
  have hslot : markerFeed id marker graph = .ok feed := by
    unfold markerFeed
    rw [hfeed]
  generalize hrun : (resolveMarker ⟨[("fake", id)]⟩).run graph = outcome
  unfold resolveMarker at hrun
  replace hrun := run_of_run_bind hrun (show (ofExcept (.ok id)).run graph = .ok id graph from rfl)
  replace hrun := run_of_run_check_bind hrun (graph.requireNode_eq_ok_iff.mpr hn)
  replace hrun := run_of_run_check_bind hrun hslot
  replace hrun := run_of_run_check_bind hrun (graph.requireConnection_eq_ok_iff.mpr hends)
  exact (run_of_run_check_bind hrun (graph.requireNode_eq_ok_iff.mpr hproducer)).symm

/-- A marker that is fed cannot be resolved only if it is bypassed and this comes to a halt. -/
theorem halted_of_run_resolveMarker (h : graph.Coherent) (hn : graph.node? id = some marker)
    (hfeed : graph.inputConnection? id 0 = some feed) (hsource : graph.source? feed = some source)
    (hrun : (resolveMarker ⟨[("fake", id)]⟩).run graph = .error error result) :
    (∃ producer, graph.node? source.node = some producer ∧ producer.usedOutputs = 1) ∧
      Unplugged graph id feed source result ∧
        Halted graph id marker.name source.node error result := by
  obtain ⟨ends, hends, rfl⟩ := Option.map_eq_some_iff.mp hsource
  obtain ⟨producer, hproducer, _⟩ := h.linked.hasPort_source hsource
  rw [run_resolveMarker_of_fed hn hfeed hends hproducer] at hrun
  by_cases hsingle : producer.usedOutputs = 1
  · rw [if_pos hsingle] at hrun
    obtain ⟨middle, hunplugged, hbare, hsame⟩ := run_bypassMarker h hn hends
    rw [hsame] at hrun
    obtain ⟨own, hown, hname⟩ := Option.map_eq_some_iff.mp
      ((hbare id).trans (Graph.bare?_of_node? hn))
    have hthere : (middle.node? ends.source.node).isSome = true := by
      rw [← Graph.isSome_bare?, hbare, Graph.bare?_of_node? hproducer]
      rfl
    obtain ⟨hhalted, hcoherent, hslots, hsources⟩ := halted_of_run_handName hunplugged.coherent hown
      (congrArg (·.name) hname) hthere hrun
    exact ⟨⟨producer, hproducer, hsingle⟩, hunplugged.of_same hcoherent hslots hsources,
      hhalted.of_same_bare h hunplugged.coherent hbare⟩
  · rw [if_neg hsingle] at hrun
    have hexists : (graph.node? id).isSome = true := by rw [hn]; rfl
    exact (failsOnly_setOpType (E := fun _ => False) "Identity" graph error result hexists hrun).elim

end OpGraph
