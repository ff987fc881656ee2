import OpGraph.Proofs.Edit.Changes
import OpGraph.Proofs.Graph.Feed
import OpGraph.Proofs.Pattern.Single

/-!
# What the resolution of a marker does

A resolved marker either becomes an identity and nothing else changes, or it is gone: what it
fed is fed by its source, the producer carries its name, and all other nodes and feeds are as
before.
-/

namespace OpGraph

open Edit

variable {graph result : Graph} {id : NodeId} {source port : PortRef} {marker : Node}

/-- Where a port leads once a node is bypassed: ports of that node to the given source. -/
def PortRef.redirect (id : NodeId) (source port : PortRef) : PortRef :=
  if port.node = id then source else port

/-- Another name for a bare node, as a change of that node. -/
theorem Graph.bare?_rename (graph : Graph) (id other : NodeId) (old new : String) :
    (graph.rename id old new).bare? other =
      if other = id then (graph.bare? other).map ({ · with name := new }) else graph.bare? other :=
  graph.bare?_modifyNode (f := ({ · with name := new })) (g := ({ · with name := new }))
    (fun _ => rfl) id other

/-- A successful renaming shows as the new name on the bare node and nowhere else. -/
structure Renamed (graph : Graph) (id : NodeId) (name : String) (result : Graph) : Prop where
  /-- The node has the name; everything else of the nodes stays. -/
  bare : ∀ other, result.bare? other =
    if other = id then (graph.bare? other).map ({ · with name }) else graph.bare? other
  /-- Feeds stay. -/
  inputSource : ∀ node index, result.inputSource? node index = graph.inputSource? node index

theorem renamed_of_run {name : String} {value : Unit}
    (hrun : (renameNode id name).run graph = .ok value result) : Renamed graph id name result := by
  obtain ⟨node, hn, ⟨hname, rfl⟩ | ⟨_, _, rfl⟩⟩ := run_renameNode_eq_ok.mp hrun
  · refine ⟨fun other => ?_, fun _ _ => rfl⟩
    split
    · rename_i hother
      rw [hother, Graph.bare?, hn, ← hname]
      rfl
    · rfl
  · exact ⟨fun other => graph.bare?_rename id other node.name name,
      fun node index => Graph.inputSource?_rename _ _ node index⟩

/-- A successful redirection of several connections shows in their sources and nowhere else. -/
structure Resourced (graph : Graph) (connections : List ConnectionId) (port : PortRef)
    (result : Graph) : Prop where
  /-- Slots stay. -/
  inputConnection : ∀ node index,
    result.inputConnection? node index = graph.inputConnection? node index
  /-- The listed connections start at the port, the others where they did. -/
  source : ∀ other, result.source? other =
    if other ∈ connections then some port else graph.source? other
  /-- Bare nodes stay. -/
  bare : ∀ other, result.bare? other = graph.bare? other

theorem resourced_of_run {connections : List ConnectionId} {value : PUnit}
    (hrun : (connections.forM fun connection => rewireSource connection port).run graph =
      .ok value result) : Resourced graph connections port result := by
  induction connections generalizing graph with
  | nil =>
    cases hrun
    exact ⟨fun _ _ => rfl, fun _ => by simp, fun _ => rfl⟩
  | cons head tail ih =>
    obtain ⟨_, middle, hhead, htail⟩ := run_bind_eq_ok.mp hrun
    obtain ⟨ends, hends, hdir, hport, hmiddle⟩ := run_rewireSource_eq_ok.mp hhead
    have hsource : graph.source? head = some ends.source := by rw [Graph.source?, hends]; rfl
    have hstep : Resourced graph [head] port middle := by
      by_cases hsame : port = ends.source
      · rw [if_pos hsame] at hmiddle
        subst hmiddle
        refine ⟨fun _ _ => rfl, fun other => ?_, fun _ => rfl⟩
        by_cases hother : other = head
        · simp [hother, hsource, hsame]
        · simp [hother]
      · rw [if_neg hsame] at hmiddle
        subst hmiddle
        refine ⟨fun node index => Graph.inputConnection?_moveSource node index, fun other => ?_,
          fun other => Graph.bare?_moveSource other⟩
        rw [Graph.source?_moveSource]
        by_cases hother : other = head
        · simp [hother, hsource]
        · simp [hother]
    have hrest := ih htail
    refine ⟨fun node index => ?_, fun other => ?_, fun other => ?_⟩
    · rw [hrest.inputConnection, hstep.inputConnection]
    · rw [hrest.source, hstep.source]
      by_cases hother : other = head <;> simp [hother]
    · rw [hrest.bare, hstep.bare]

/-- What a bypass of a marker leaves behind. -/
structure Bypassed (graph : Graph) (id : NodeId) (name : String) (source : PortRef)
    (result : Graph) : Prop where
  /-- The marker is gone. -/
  gone : result.node? id = none
  /-- The producer carries the name of the marker; everything else of the other nodes stays. -/
  bare : ∀ other, other ≠ id → result.bare? other =
    if other = source.node then (graph.bare? other).map ({ · with name }) else graph.bare? other
  /-- What the marker fed is fed by its source. -/
  inputSource : ∀ other, other ≠ id → ∀ index,
    result.inputSource? other index = (graph.inputSource? other index).map (.redirect id source)

namespace Bypassed

variable {name : String} (h : Bypassed graph id name source result) {other : NodeId} {bare now : Node}
include h

/-- The nodes that are left do not include the marker. -/
theorem ne_of_bare? (hnow : result.bare? other = some now) : other ≠ id := by
  rintro rfl
  rw [Graph.bare?, h.gone] at hnow
  cases hnow

/-- The nodes that are fed do not include the marker. -/
theorem ne_of_inputSource? {index : Nat} (hport : result.inputSource? other index = some port) :
    other ≠ id := by
  rintro rfl
  have hsome := Graph.node?_isSome_of_inputSource? hport
  rw [h.gone] at hsome
  cases hsome

/-- A node that is left was there before, with another name at most. -/
theorem exists_before (hnow : result.bare? other = some now) :
    ∃ bare, graph.bare? other = some bare ∧ now = { bare with name := now.name } := by
  rw [h.bare other (h.ne_of_bare? hnow)] at hnow
  split at hnow
  · obtain ⟨bare, hbare, rfl⟩ := Option.map_eq_some_iff.mp hnow
    exact ⟨bare, hbare, rfl⟩
  · exact ⟨now, hnow, rfl⟩

/-- Every other node is left, with another name at most. -/
theorem exists_after (hother : other ≠ id) (hbare : graph.bare? other = some bare) :
    ∃ now, result.bare? other = some now ∧ now = { bare with name := now.name } := by
  rw [h.bare other hother, hbare]
  split
  · exact ⟨_, rfl, rfl⟩
  · exact ⟨_, rfl, rfl⟩

/-- The producer is the one node that gets another name. -/
theorem nameOf? (hother : other ≠ id) : result.nameOf? other =
    if other = source.node then (graph.nameOf? other).map fun _ => name else graph.nameOf? other := by
  rw [Graph.nameOf?_eq_bare?, Graph.nameOf?_eq_bare?, h.bare other hother]
  split
  · cases graph.bare? other <;> rfl
  · rfl

/-- Of the outputs of other nodes the same is known. -/
theorem outputInfo? (hport : port.node ≠ id) : result.outputInfo? port = graph.outputInfo? port := by
  rw [Graph.outputInfo?_eq_bare?, Graph.outputInfo?_eq_bare?, h.bare port.node hport]
  split
  · split
    · cases graph.bare? port.node <;> rfl
    · rfl
  · rfl

end Bypassed

/-- A successful bypass of a marker. -/
theorem bypassed_of_run (h : graph.Coherent) {feed : ConnectionId} {value : Unit}
    (hn : graph.node? id = some marker) (hfeed : graph.inputConnection? id 0 = some feed)
    (hrun : (bypassMarker id marker feed source).run graph = .ok value result) :
    Bypassed graph id marker.name source result := by
  unfold bypassMarker at hrun
  obtain ⟨_, rewired, hrewire, hrun⟩ := run_bind_eq_ok.mp hrun
  obtain ⟨_, cut, hcut, hrun⟩ := run_bind_eq_ok.mp hrun
  obtain ⟨_, freed, hfreed, hrun⟩ := run_bind_eq_ok.mp hrun
  obtain ⟨_, named, hnamed, hrun⟩ := run_bind_eq_ok.mp hrun
  obtain ⟨ends, hcut⟩ := run_discard_eq_ok.mp hcut
  obtain ⟨bare, hremove⟩ := run_discard_eq_ok.mp hrun
  have hcoherent : rewired.Coherent := by
    have hchanges : Keeps graph.Changes ((marker.outputs.flatMap (·.connections)).forM
        fun connection => rewireSource connection source) :=
      keeps_forM fun _ _ => changes_rewireSource h
    exact h.changes (hchanges.ensures graph _ _ .refl hrewire)
  have hrewired := resourced_of_run hrewire
  obtain ⟨hends, rfl⟩ := run_disconnect_eq_ok.mp hcut
  have hfreed := renamed_of_run hfreed
  have hnamed := renamed_of_run hnamed
  obtain ⟨_, _, rfl⟩ := run_removeNode_strict_eq_ok.mp hremove
  refine ⟨?_, fun other hother => ?_, fun other hother index => ?_⟩
  · rw [Graph.node?_eraseNode, if_pos rfl]
  · have hstays : (named.eraseNode id bare.name).bare? other = named.bare? other := by
      rw [Graph.bare?, Graph.node?_eraseNode, if_neg hother, Graph.bare?]
    rw [hstays, hnamed.bare, hfreed.bare, if_neg hother, Graph.bare?_eraseConnection, hrewired.bare]
  · rw [Graph.inputSource?_eraseNode, if_neg hother, hnamed.inputSource, hfreed.inputSource,
      hcoherent.inputSource?_eraseConnection hends, Graph.inputSource?_eq, Graph.inputSource?_eq,
      hrewired.inputConnection]
    cases hslot : graph.inputConnection? other index with
    | none => rfl
    | some connection =>
      have hne : connection ≠ feed := by
        rintro rfl
        have hfirst := (h.linked.feed_iff id 0 connection).mp hfeed
        have hsecond := (h.linked.feed_iff other index connection).mp hslot
        rw [hfirst] at hsecond
        exact hother (congrArg PortRef.node (Option.some.inj hsecond)).symm
      rw [if_neg (by simpa using hne)]
      simp only [Option.bind_some, hrewired.source, h.mem_outgoing_iff hn]
      cases hsource : graph.source? connection with
      | none => simp
      | some port => by_cases hport : port.node = id <;> simp [hport, PortRef.redirect]

/-- The two ways in which a marker is resolved. -/
inductive Resolved (graph : Graph) (id : NodeId) (marker : Node) (source : PortRef)
    (producer : Node) (result : Graph) : Prop where
  /-- The only used output port of the producer feeds the marker, which is bypassed. -/
  | bypassed (single : producer.usedOutputs = 1)
      (bypassed : Bypassed graph id marker.name source result)
  /-- The producer uses no other number of output ports, and the marker becomes an identity. -/
  | identity (other : producer.usedOutputs ≠ 1)
      (changed : result = graph.modifyNode id ({ · with opType := "Identity" }))

/-- A successful resolution of a marker. -/
theorem resolved_of_run (h : graph.Coherent) {found : Match} {value : Unit}
    (hrun : (resolveMarker found).run graph = .ok value result) :
    ∃ id marker source producer, found.require "fake" = .ok id ∧
      graph.node? id = some marker ∧ graph.inputSource? id 0 = some source ∧
        graph.node? source.node = some producer ∧
          Resolved graph id marker source producer result := by
  unfold resolveMarker at hrun
  obtain ⟨id, hid, hrun⟩ := run_ofExcept_bind_eq_ok.mp hrun
  obtain ⟨marker, hn, hrun⟩ := run_check_bind_eq_ok.mp hrun
  obtain ⟨feed, hfeed, hrun⟩ := run_check_bind_eq_ok.mp hrun
  obtain ⟨ends, hends, hrun⟩ := run_check_bind_eq_ok.mp hrun
  obtain ⟨producer, hproducer, hrun⟩ := run_check_bind_eq_ok.mp hrun
  rw [Graph.requireNode_eq_ok_iff] at hn hproducer
  rw [Graph.requireConnection_eq_ok_iff] at hends
  have hslot : graph.inputConnection? id 0 = some feed := by
    unfold markerFeed at hfeed
    cases hslot : graph.inputConnection? id 0 with
    | none => simp [hslot] at hfeed
    | some connection =>
      simp only [hslot, Except.ok.injEq] at hfeed
      rw [hfeed]
  have hsource : graph.inputSource? id 0 = some ends.source := by
    rw [Graph.inputSource?_eq, hslot]
    simp [Graph.source?, hends]
  refine ⟨id, marker, ends.source, producer, hid, hn, hsource, hproducer, ?_⟩
  by_cases hsingle : producer.usedOutputs = 1
  · rw [if_pos hsingle] at hrun
    exact .bypassed hsingle (bypassed_of_run h hn hslot hrun)
  · rw [if_neg hsingle] at hrun
    exact .identity hsingle (run_setOpType_eq_ok.mp hrun).2

end OpGraph
