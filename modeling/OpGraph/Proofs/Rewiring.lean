import OpGraph.Proofs.Graph.Cut
import OpGraph.Proofs.Reachable

/-!
# Rewiring is removal and a new connection

One end of a connection is moved in place, in all three records at once. The same could be had by
removing the connection and making one between the ports that are meant. Both ways are open under the
same conditions, also where the connection itself holds the port to which it is moved, and they lead to
the same graph, but for the number of the connection and for the places in the table and in a list that
come with it: a connection in place keeps its number and its place in the table, and its place in the
list if it does not change the list.
-/

namespace OpGraph

open Edit

/-- A connection is removed, and one is made from the source to the destination. -/
def Edit.reconnect (id : ConnectionId) (source destination : PortRef) : Edit ConnectionId := do
  discard (disconnect id)
  connect source destination

namespace Graph

variable {graph result other : Graph} {id new : ConnectionId} {ends : Connection}
  {source destination port : PortRef}

/-! ### The same up to one connection -/

/-- The records of a connection: it stands in the table with its ends, once in the list of its source
and in no other list, and in the slot of its destination and in no other slot. -/
structure Spans (graph : Graph) (id : ConnectionId) (ends : Connection) : Prop where
  /-- The table has the ends. -/
  table : graph.connection? id = some ends
  /-- The source lists the connection once, and no other port lists it. -/
  listed : ∀ node index, (graph.listed node index).count id =
    if .output node index = ends.source then 1 else 0
  /-- The destination holds the connection, and no other port does. -/
  slot : ∀ node index, graph.inputConnection? node index = some id ↔ .input node index = ends.destination

/-- Without one connection each the graphs are the same, counted connections apart, and the connection
of the one runs between the same ports as that of the other. -/
structure SameUpTo (graph : Graph) (id : ConnectionId) (other : Graph) (new : ConnectionId)
    (ends : Connection) : Prop where
  /-- Nodes, ports, annotations, names and all other connections are the same, in the same orders. -/
  rest : { other.cut [new] with nextConnection := graph.nextConnection } = graph.cut [id]
  /-- The connection of the one graph. -/
  spans : graph.Spans id ends
  /-- The connection of the other one. -/
  spans_other : other.Spans new ends

/-- In linked graphs all records of a connection follow from the table. -/
theorem Linked.spans (h : graph.Linked) (hends : graph.connection? id = some ends) :
    graph.Spans id ends where
  table := hends
  listed node index := by
    have hsource : graph.source? id = some ends.source := by rw [source?, hends]; rfl
    have hlisted := h.listed_iff node index id
    rw [hsource, Option.some.injEq] at hlisted
    split
    · rename_i hport
      exact List.count_eq_one_of_mem (h.nodup node index) (hlisted.mpr hport.symm)
    · rename_i hport
      exact List.count_eq_zero.mpr fun hmem => hport (hlisted.mp hmem).symm
  slot node index := by
    have hdestination : graph.destination? id = some ends.destination := by
      rw [destination?, hends]; rfl
    rw [h.feed_iff, hdestination, Option.some.injEq]
    exact eq_comm

/-! ### Removal and a new connection -/

theorem hasPort_cut {gone : List ConnectionId} : (graph.cut gone).HasPort port ↔ graph.HasPort port := by
  simp only [hasPort_iff_bare?, bare?_cut]

/-- Where a connection is cut its destination is free, and so is every port that was. -/
theorem Linked.free_cut_iff (h : graph.Linked) (hends : graph.connection? id = some ends)
    (hdir : port.direction = .input) :
    (graph.cut [id]).inputConnection? port.node port.index = none ↔
      port = ends.destination ∨ graph.inputConnection? port.node port.index = none := by
  have hslot := (h.spans hends).slot port.node port.index
  rw [← PortRef.eq_input hdir] at hslot
  rw [inputConnection?_cut, ← hslot]
  cases graph.inputConnection? port.node port.index <;> simp

/-- The connection is cut, and the ports are connected if this is allowed then. -/
theorem Linked.run_reconnect_eq_ok (h : graph.Linked) (hends : graph.connection? id = some ends) :
    (reconnect id source destination).run graph = .ok new result ↔
      (graph.cut [id]).checkConnect source destination = .ok () ∧ new = ⟨graph.nextConnection⟩ ∧
        result = (graph.cut [id]).insertConnection source destination := by
  have hcut : (discard (disconnect id)).run graph = .ok ⟨⟩ (graph.cut [id]) :=
    run_discard_eq_ok.mpr ⟨ends, h.run_disconnect hends⟩
  unfold reconnect
  rw [EStateM.run_bind, hcut]
  exact run_connect_eq_ok

/-- A change that does not show once the connection is cut is the same as its removal followed by a new
connection between the ports to which it leads. -/
theorem Coherent.sameUpTo_of_cut (h : graph.Coherent) (hends : graph.connection? id = some ends)
    (hresult : result.Coherent) (hcut : result.cut [id] = graph.cut [id])
    (hmoved : result.connection? id = some ⟨source, destination⟩)
    (hcheck : (graph.cut [id]).checkConnect source destination = .ok ()) :
    SameUpTo result id ((graph.cut [id]).insertConnection source destination) ⟨graph.nextConnection⟩
      ⟨source, destination⟩ where
  rest := by
    have hcount : (result.cut [id]).nextConnection = (graph.cut [id]).nextConnection := by rw [hcut]
    change result.nextConnection = graph.nextConnection at hcount
    have hback := (h.cut hends).cut_insertConnection hcheck
    change ((graph.cut [id]).insertConnection source destination).cut [⟨graph.nextConnection⟩] = _ at hback
    rw [hback, hcut, hcount]
    rfl
  spans := hresult.linked.spans hmoved
  spans_other := by
    refine ((h.cut hends).change (.insertConnection hcheck)).linked.spans ?_
    rw [connection?_insertConnection]
    exact if_pos rfl

/-! ### Both ends -/

/-- The edit succeeds exactly if the connection can be removed and one can be made from the source to
the destination then, and it leads to the same graph up to that connection. -/
structure Agrees (graph : Graph) (rewire : Edit Unit) (id : ConnectionId)
    (source destination : PortRef) : Prop where
  /-- Both ways are open or none is. -/
  succeeds : (∃ result, rewire.run graph = .ok () result) ↔
    ∃ new other, (reconnect id source destination).run graph = .ok new other
  /-- Both ways lead to the same graph. -/
  same : ∀ result new other, rewire.run graph = .ok () result →
    (reconnect id source destination).run graph = .ok new other →
      SameUpTo result id other new ⟨source, destination⟩

theorem Coherent.agrees_rewireDestination (h : graph.Coherent)
    (hends : graph.connection? id = some ends) (port : PortRef) :
    Agrees graph (rewireDestination id port) id ends.source port := by
  have hsource : graph.source? id = some ends.source := by rw [source?, hends]; rfl
  have hcheck : (graph.cut [id]).checkConnect ends.source port = .ok () ↔
      port.direction = .input ∧ graph.HasPort port ∧
        (port = ends.destination ∨ graph.inputConnection? port.node port.index = none) := by
    rw [checkConnect_eq_ok_iff, hasPort_cut, hasPort_cut]
    constructor
    · rintro ⟨_, hdir, _, hport, hfree⟩
      exact ⟨hdir, hport, (h.linked.free_cut_iff hends hdir).mp hfree⟩
    · rintro ⟨hdir, hport, hfree⟩
      exact ⟨h.linked.source_output _ _ hsource, hdir, h.linked.hasPort_source hsource, hport,
        (h.linked.free_cut_iff hends hdir).mpr hfree⟩
  constructor
  · simp only [run_rewireDestination_eq_ok, h.linked.run_reconnect_eq_ok hends, hcheck]
    constructor
    · rintro ⟨_, own, hown, hdir, hport, hcases⟩
      cases hends.symm.trans hown
      exact ⟨_, _, ⟨hdir, hport, hcases.imp And.left fun hmove => hmove.2.1⟩, rfl, rfl⟩
    · rintro ⟨_, _, ⟨hdir, hport, hfree⟩, _⟩
      by_cases hsame : port = ends.destination
      · exact ⟨graph, ends, hends, hdir, hport, .inl ⟨hsame, rfl⟩⟩
      · exact ⟨_, ends, hends, hdir, hport, .inr ⟨hsame, hfree.resolve_left hsame, rfl⟩⟩
  · intro result new other hrewire hreconnect
    obtain ⟨hallowed, rfl, rfl⟩ := (h.linked.run_reconnect_eq_ok hends).mp hreconnect
    obtain ⟨own, hown, hdir, hport, ⟨rfl, rfl⟩ | ⟨_, hfree, rfl⟩⟩ :=
      run_rewireDestination_eq_ok.mp hrewire
    · cases hends.symm.trans hown
      exact h.sameUpTo_of_cut hends h rfl hends hallowed
    · cases hends.symm.trans hown
      refine h.sameUpTo_of_cut hends (h.change (.moveDestination hends hdir hport hfree))
        (h.linked.cut_moveDestination hends hdir hport hfree) ?_ hallowed
      rw [connection?_moveDestination, if_pos rfl, hends]
      rfl

theorem Coherent.agrees_rewireSource (h : graph.Coherent)
    (hends : graph.connection? id = some ends) (port : PortRef) :
    Agrees graph (rewireSource id port) id port ends.destination := by
  have hdestination : graph.destination? id = some ends.destination := by
    rw [destination?, hends]; rfl
  have hinput := h.linked.destination_input _ _ hdestination
  have hcheck : (graph.cut [id]).checkConnect port ends.destination = .ok () ↔
      port.direction = .output ∧ graph.HasPort port := by
    rw [checkConnect_eq_ok_iff, hasPort_cut, hasPort_cut]
    constructor
    · rintro ⟨hdir, _, hport, _⟩
      exact ⟨hdir, hport⟩
    · rintro ⟨hdir, hport⟩
      exact ⟨hdir, hinput, hport, h.linked.hasPort_destination hdestination,
        (h.linked.free_cut_iff hends hinput).mpr (.inl rfl)⟩
  constructor
  · simp only [run_rewireSource_eq_ok, h.linked.run_reconnect_eq_ok hends, hcheck]
    constructor
    · rintro ⟨_, _, _, hdir, hport, _⟩
      exact ⟨_, _, ⟨hdir, hport⟩, rfl, rfl⟩
    · rintro ⟨_, _, ⟨hdir, hport⟩, _⟩
      exact ⟨_, ends, hends, hdir, hport, rfl⟩
  · intro result new other hrewire hreconnect
    obtain ⟨hallowed, rfl, rfl⟩ := (h.linked.run_reconnect_eq_ok hends).mp hreconnect
    obtain ⟨own, hown, hdir, hport, rfl⟩ := run_rewireSource_eq_ok.mp hrewire
    cases hends.symm.trans hown
    by_cases hsame : port = ends.source
    · rw [if_pos hsame]
      subst hsame
      exact h.sameUpTo_of_cut hends h rfl hends hallowed
    · rw [if_neg hsame]
      refine h.sameUpTo_of_cut hends (h.change (.moveSource hends hdir hport hsame))
        (h.linked.cut_moveSource hends hdir hport hsame) ?_ hallowed
      rw [connection?_moveSource, if_pos rfl, hends]
      rfl

/-- Rewiring agrees with removal and a new connection. In a reachable graph the end of a connection can
be moved to a port, whatever port it is, exactly if the connection can be removed and its other end can
be connected to the port then, and up to this connection the results are the same. -/
theorem rewired_as_reconnected (h : graph.Reachable) (hends : graph.connection? id = some ends)
    (port : PortRef) :
    Agrees graph (rewireDestination id port) id ends.source port ∧
      Agrees graph (rewireSource id port) id port ends.destination :=
  ⟨h.coherent.agrees_rewireDestination hends port, h.coherent.agrees_rewireSource hends port⟩

/-- Two nodes feed a third one, of which one input port is free. -/
def forkGraph : Graph :=
  empty.afterAll
    [.addNode { opType := "Parameter", outputs := 1 }, .addNode { opType := "Parameter", outputs := 1 },
      .addNode { opType := "Concat", inputs := 4 }, .connect (.output ⟨0⟩ 0) (.input ⟨2⟩ 0),
      .connect (.output ⟨0⟩ 0) (.input ⟨2⟩ 1), .connect (.output ⟨1⟩ 0) (.input ⟨2⟩ 2)]

/-- A connection that moves to the free port keeps its place in the list, where a new one comes last. -/
theorem rewired_as_reconnected_forkGraph :
    ∃ result new other, (rewireDestination ⟨0⟩ (.input ⟨2⟩ 3)).run forkGraph = .ok () result ∧
      (reconnect ⟨0⟩ (.output ⟨0⟩ 0) (.input ⟨2⟩ 3)).run forkGraph = .ok new other ∧
        SameUpTo result ⟨0⟩ other new ⟨.output ⟨0⟩ 0, .input ⟨2⟩ 3⟩ ∧
          result.listed ⟨0⟩ 0 = [⟨0⟩, ⟨1⟩] ∧ other.listed ⟨0⟩ 0 = [⟨1⟩, ⟨3⟩] := by
  have hreachable : forkGraph.Reachable := reachable_of_operations _
  have hends : forkGraph.connection? ⟨0⟩ = some ⟨.output ⟨0⟩ 0, .input ⟨2⟩ 0⟩ := by decide +kernel
  have hport : forkGraph.HasPort (.input ⟨2⟩ 3) :=
    (forkGraph.checkPort_eq_ok_iff _).mp (by decide +kernel)
  have hrewire : (rewireDestination ⟨0⟩ (.input ⟨2⟩ 3)).run forkGraph =
      .ok () (forkGraph.moveDestination ⟨0⟩ (.input ⟨2⟩ 0) (.input ⟨2⟩ 3)) :=
    run_rewireDestination_eq_ok.mpr
      ⟨_, hends, rfl, hport, .inr ⟨by decide, by decide +kernel, rfl⟩⟩
  obtain ⟨hsucceeds, hsame⟩ := (rewired_as_reconnected hreachable hends (.input ⟨2⟩ 3)).1
  obtain ⟨new, other, hreconnect⟩ := hsucceeds.mp ⟨_, hrewire⟩
  refine ⟨_, new, other, hrewire, hreconnect, hsame _ _ _ hrewire hreconnect, by decide +kernel, ?_⟩
  rw [← after_of_run_ok hreconnect]
  decide +kernel

end Graph

end OpGraph
