import OpGraph.Proofs.Graph.Change

/-!
# The order at an output port

An output port keeps the connections that stay there in their order, and what comes to it stands behind
them. This is so for every single change: it brings nothing to a port, or the new connection, or one
that starts elsewhere until then. Over several changes it needs care, since a connection that goes away
and comes back has lost its place. Changes that move no connection cannot bring any back; nor can those
that take connections away from a port only together with its node, because numbers are not used again.
-/

namespace OpGraph.Graph

variable {graph middle later : Graph} {node : NodeId} {index : Nat} {id : ConnectionId} {port : PortRef}

/-! ### What stays and what comes -/

/-- Every output port keeps the connections that it still lists later in their order, in front of those
that come. -/
def Queued (graph later : Graph) : Prop :=
  ∀ node index, ∃ came, later.listed node index =
    (graph.listed node index).filter (· ∈ later.listed node index) ++ came

/-- If what comes is new to a list, then what was kept is what is listed later. -/
theorem eq_filter_mem_append {before after came : List ConnectionId} {kept : ConnectionId → Bool}
    (h : after = before.filter kept ++ came) (hnew : ∀ id ∈ came, id ∉ before) :
    after = before.filter (· ∈ after) ++ came := by
  conv_lhs => rw [h]
  congr 1
  refine List.filter_congr fun id hid => ?_
  have hcame : id ∉ came := fun hmem => hnew id hmem hid
  simp [h, hid, hcame]

namespace Queued

theorem refl (graph : Graph) : graph.Queued graph := fun node index =>
  ⟨[], by rw [List.append_nil, List.filter_eq_self.mpr fun _ hid => decide_eq_true hid]⟩

/-- The order lasts over two stages if no connection goes away in the first one and comes back in the
second one. -/
theorem trans_of_no_return (h : graph.Queued middle) (h' : middle.Queued later)
    (hreturn : ∀ node index id, id ∈ graph.listed node index → id ∈ later.listed node index →
      id ∈ middle.listed node index) : graph.Queued later := by
  intro node index
  obtain ⟨came, hcame⟩ := h node index
  obtain ⟨came', hcame'⟩ := h' node index
  refine ⟨came.filter (· ∈ later.listed node index) ++ came', ?_⟩
  have hstays : (graph.listed node index).filter (· ∈ later.listed node index) =
      ((graph.listed node index).filter (· ∈ middle.listed node index)).filter
        (· ∈ later.listed node index) := by
    rw [List.filter_filter]
    refine List.filter_congr fun id hid => ?_
    by_cases hlater : id ∈ later.listed node index
    · simp [hlater, hreturn node index id hid hlater]
    · simp [hlater]
  rw [hstays, ← List.append_assoc, ← List.filter_append, ← hcame]
  exact hcame'

end Queued

/-! ### Single changes -/

/-- What one change brings to a port. -/
inductive Arrival (graph later : Graph) (node : NodeId) (index : Nat) : List ConnectionId → Prop where
  /-- Nothing comes. -/
  | nothing : Arrival graph later node index []
  /-- The new connection comes. -/
  | created : Arrival graph later node index [⟨graph.nextConnection⟩]
  /-- A connection comes from another port. -/
  | moved {id : ConnectionId} {port : PortRef} (before : graph.source? id = some port)
      (other : port ≠ .output node index) (after : later.source? id = some (.output node index)) :
      Arrival graph later node index [id]

/-- What a connection needs to be new at a port. -/
theorem Linked.notMem_listed (h : graph.Linked) (hsource : graph.source? id ≠ some (.output node index)) :
    id ∉ graph.listed node index := (h.listed_iff node index id).not.mpr hsource

/-- A connection of the table has been counted. -/
theorem Coherent.lt_of_source? (h : graph.Coherent) (hsource : graph.source? id = some port) :
    id.index < graph.nextConnection := by
  refine h.counted.2 id ((graph.connections.mem_keys_iff id).mpr ?_)
  change (graph.connection? id).isSome = true
  rw [← Option.isSome_map (f := Connection.source), ← source?, hsource]
  rfl

/-- A listed connection has been counted. -/
theorem Coherent.lt_of_mem_listed (h : graph.Coherent) (hmem : id ∈ graph.listed node index) :
    id.index < graph.nextConnection :=
  h.lt_of_source? ((h.linked.listed_iff node index id).mp hmem)

/-- A connection that was counted and is gone stays so. -/
theorem Later.source?_eq_none (h : graph.Later later) (hid : id.index < graph.nextConnection)
    (hgone : graph.source? id = none) : later.source? id = none :=
  Option.map_eq_none_iff.mpr (h.connection id hid (Option.map_eq_none_iff.mp hgone))

/-- What arrives is new to the port. -/
theorem Coherent.notMem_of_arrival (h : graph.Coherent) {came : List ConnectionId}
    (harrival : Arrival graph later node index came) : ∀ id ∈ came, id ∉ graph.listed node index := by
  cases harrival with
  | nothing => simp
  | created =>
    intro id hid hmem
    rw [List.mem_singleton.mp hid] at hmem
    exact Nat.lt_irrefl _ (h.lt_of_mem_listed hmem)
  | moved before other _ =>
    intro id hid
    rw [List.mem_singleton.mp hid]
    exact h.linked.notMem_listed fun hsource => other (Option.some.inj (before.symm.trans hsource))

/-- A connection that moves comes to the end of a list, and leaves a gap in another one. -/
theorem Linked.arrival_moveSource (h : graph.Linked) {ends : Connection}
    (found : graph.connection? id = some ends) (output : port.direction = .output)
    (hport : graph.HasPort port) (other : port ≠ ends.source) :
    ∃ kept came, Arrival graph (graph.moveSource id ends.source port) node index came ∧
      (graph.moveSource id ends.source port).listed node index =
        (graph.listed node index).filter kept ++ came := by
  have hsource : graph.source? id = some ends.source := by rw [source?, found]; rfl
  have hne := PortRef.not_same_place output (h.source_output id ends.source hsource) other
  rw [listed_moveSource hport output hne]
  by_cases hnew : node = port.node ∧ index = port.index
  · have hhere : port = .output node index := by
      rw [hnew.1, hnew.2]
      exact PortRef.eq_output output
    refine ⟨fun _ => true, [id], .moved hsource (fun heq => other (hhere.trans heq.symm)) ?_, ?_⟩
    · rw [source?_moveSource, if_pos rfl, hsource, ← hhere]
      rfl
    · simp [hnew]
  · rw [if_neg hnew]
    by_cases hold : node = ends.source.node ∧ index = ends.source.index
    · exact ⟨(· ≠ id), [], .nothing, by rw [if_pos hold, List.append_nil]⟩
    · exact ⟨fun _ => true, [], .nothing, by rw [if_neg hold]; simp⟩

/-- Every single change keeps the order at all ports. -/
theorem Coherent.arrival_of_change (h : graph.Coherent) (hchange : graph.Change later) (node : NodeId)
    (index : Nat) : ∃ came, Arrival graph later node index came ∧ later.listed node index =
      (graph.listed node index).filter (· ∈ later.listed node index) ++ came := by
  suffices ∃ kept came, Arrival graph later node index came ∧
      later.listed node index = (graph.listed node index).filter kept ++ came by
    obtain ⟨kept, came, harrival, hlisted⟩ := this
    exact ⟨came, harrival, eq_filter_mem_append hlisted (h.notMem_of_arrival harrival)⟩
  have hsame : later.listed node index = graph.listed node index →
      ∃ kept came, Arrival graph later node index came ∧
        later.listed node index = (graph.listed node index).filter kept ++ came :=
    fun hlisted => ⟨fun _ => true, [], .nothing, by simp [hlisted]⟩
  cases hchange with
  | insertNode desc => exact hsame (graph.listed_insertNode desc h.registered.node?_next node index)
  | modifyNode id neutral => exact hsame (graph.listed_modifyNode neutral.listed id node index)
  | rename _ _ => exact hsame (graph.listed_rename _ node _ _ index)
  | @eraseNode id own _ _ =>
    by_cases hnode : node = id
    · exact ⟨fun _ => false, [], .nothing, by simp [listed_eraseNode, hnode]⟩
    · exact hsame (by rw [listed_eraseNode, if_neg hnode])
  | @insertConnection source destination allowed =>
    obtain ⟨hdir, _, hport, _⟩ := (graph.checkConnect_eq_ok_iff source destination).mp allowed
    by_cases hhere : node = source.node ∧ index = source.index
    · exact ⟨fun _ => true, _, .created, by simp [listed_insertConnection hport hdir, hhere]⟩
    · exact hsame (by rw [listed_insertConnection hport hdir, if_neg hhere])
  | @eraseConnection id ends _ =>
    by_cases hhere : node = ends.source.node ∧ index = ends.source.index
    · exact ⟨(· ≠ id), [], .nothing, by simp [listed_eraseConnection, hhere]⟩
    · exact hsame (by rw [listed_eraseConnection, if_neg hhere])
  | moveDestination _ _ _ _ => exact hsame (listed_moveDestination node index)
  | moveSource found output exists_ other => exact h.linked.arrival_moveSource found output exists_ other

theorem Coherent.queued_of_change (h : graph.Coherent) (hchange : graph.Change later) :
    graph.Queued later := fun node index => by
  obtain ⟨came, _, hlisted⟩ := h.arrival_of_change hchange node index
  exact ⟨came, hlisted⟩

/-! ### Changes that move nothing -/

/-- A single change that moves no connection to another output port: every connection starts where it
did or is gone. -/
structure Still (graph later : Graph) : Prop where
  /-- A single change. -/
  change : graph.Change later
  /-- No connection starts elsewhere. -/
  source : ∀ id port, graph.source? id = some port →
    later.source? id = some port ∨ later.source? id = none

namespace Still

/-- A change after which all connections start where they did. -/
theorem of_same (hchange : graph.Change later) (hsame : ∀ id, later.source? id = graph.source? id) :
    graph.Still later :=
  ⟨hchange, fun id _ hsource => .inl ((hsame id).trans hsource)⟩

/-- A new connection starts where it is said to, and has not started elsewhere. -/
theorem insertConnection (h : graph.Coherent) {source destination : PortRef}
    (allowed : graph.checkConnect source destination = .ok ()) :
    graph.Still (graph.insertConnection source destination) := by
  refine ⟨.insertConnection allowed, fun id port hsource => .inl ?_⟩
  rw [source?_insertConnection, if_neg, hsource]
  rintro rfl
  rw [source?, h.connection?_next] at hsource
  cases hsource

/-- A removed connection starts nowhere. -/
theorem eraseConnection {ends : Connection} (found : graph.connection? id = some ends) :
    graph.Still (graph.eraseConnection id ends) := by
  refine ⟨.eraseConnection found, fun other port hsource => ?_⟩
  rw [source?_eraseConnection]
  split
  · exact .inr rfl
  · exact .inl hsource

/-- A change that moves nothing brings the new connection to a port or nothing. -/
theorem eq_of_arrival (h : graph.Still later) {came : List ConnectionId}
    (harrival : Arrival graph later node index came) : came = [] ∨ came = [⟨graph.nextConnection⟩] := by
  cases harrival with
  | nothing => exact .inl rfl
  | created => exact .inr rfl
  | moved before other after =>
    rcases h.source _ _ before with hsame | hgone
    · exact absurd (Option.some.inj (hsame.symm.trans after)) other
    · rw [hgone] at after
      cases after

end Still

/-- Any number of changes that move nothing. -/
def Unmoved : Graph → Graph → Prop := Relation.ReflTransGen Still

namespace Unmoved

theorem changes (h : graph.Unmoved later) : graph.Changes later := by
  induction h with
  | refl => exact .refl
  | tail _ hlast ih => exact ih.tail hlast.change

/-- A connection starts where it did or is gone. -/
theorem source (h : graph.Unmoved later) (hgraph : graph.Coherent) (hsource : graph.source? id = some port) :
    later.source? id = some port ∨ later.source? id = none := by
  induction h with
  | refl => exact .inl hsource
  | tail hbefore hlast ih =>
    rcases ih with hsame | hgone
    · exact hlast.source id port hsame
    · have hcount := Later.of_changes (changes hbefore)
      have hid := Nat.lt_of_lt_of_le (hgraph.lt_of_source? hsource) hcount.nextConnection
      exact .inr ((Later.of_change hlast.change).source?_eq_none hid hgone)

end Unmoved

/-! ### Changes that bring nothing back -/

/-- Any number of changes that keep the order at all ports, and by which a connection leaves a port only
for good: it is gone, or the node of the port is. -/
structure Advances (graph later : Graph) : Prop where
  /-- Single changes lead from the one graph to the other. -/
  changes : graph.Changes later
  /-- Where a connection starts no more it cannot start again. -/
  left : ∀ id port, graph.source? id = some port → later.source? id = some port ∨
    later.source? id = none ∨ later.node? port.node = none
  /-- The order is kept. -/
  queued : graph.Queued later

namespace Advances

theorem refl (graph : Graph) : graph.Advances graph :=
  ⟨.refl, fun _ _ hsource => .inl hsource, .refl graph⟩

/-- Numbers are not used again, so what has left a port is gone later, too. -/
theorem stays_or_gone (h : graph.Advances middle) (hgraph : graph.Coherent)
    (hchanges : middle.Changes later) (hsource : graph.source? id = some port) :
    middle.source? id = some port ∨ later.source? id = none ∨ later.node? port.node = none := by
  have hbefore := Later.of_changes h.changes
  have hafter := Later.of_changes hchanges
  rcases h.left id port hsource with hsame | hgone | hgone
  · exact .inl hsame
  · have hcounted := Nat.lt_of_lt_of_le (hgraph.lt_of_source? hsource) hbefore.nextConnection
    exact .inr (.inl (hafter.source?_eq_none hcounted hgone))
  · obtain ⟨own, hown, _⟩ := hgraph.linked.hasPort_source hsource
    have hcounted := Nat.lt_of_lt_of_le (hgraph.registered.lt_nextNode hown) hbefore.nextNode
    exact .inr (.inr (hafter.node _ hcounted hgone))

/-- Nothing comes back to a port, so the order is kept over a second stage. -/
theorem queued_of_queued (h : graph.Advances middle) (hgraph : graph.Coherent)
    (hchanges : middle.Changes later) (hqueued : middle.Queued later) : graph.Queued later := by
  have hmiddle := hgraph.changes h.changes
  have hlater := hmiddle.changes hchanges
  refine h.queued.trans_of_no_return hqueued fun node index id hid hlast => ?_
  rw [hmiddle.linked.listed_iff]
  rcases h.stays_or_gone hgraph hchanges ((hgraph.linked.listed_iff node index id).mp hid) with
    hsame | hgone | hgone
  · exact hsame
  · rw [hlater.linked.listed_iff, hgone] at hlast
    cases hlast
  · obtain ⟨now, hnow, _⟩ := hasPort_of_mem_listed hlast
    rw [hgone] at hnow
    cases hnow

theorem trans (h : graph.Advances middle) (h' : middle.Advances later) (hgraph : graph.Coherent) :
    graph.Advances later where
  changes := h.changes.trans h'.changes
  left id port hsource := by
    rcases h.stays_or_gone hgraph h'.changes hsource with hsame | hgone
    · exact h'.left id port hsame
    · exact .inr hgone
  queued := h.queued_of_queued hgraph h'.changes h'.queued

end Advances

namespace Unmoved

theorem advances (h : graph.Unmoved later) (hgraph : graph.Coherent) : graph.Advances later := by
  induction h with
  | refl => exact .refl graph
  | @tail middle last hbefore hlast ih =>
    have hmiddle := hgraph.changes (Unmoved.changes hbefore)
    refine ih.trans ⟨.single hlast.change, fun connection port hsource => ?_,
      hmiddle.queued_of_change hlast.change⟩ hgraph
    exact (hlast.source connection port hsource).imp_right .inl

/-- What keeps the order at all ports may be followed by changes that move nothing. -/
theorem queued_of_queued (h : middle.Unmoved later) (hgraph : graph.Coherent)
    (hchanges : graph.Changes middle) (hqueued : graph.Queued middle) : graph.Queued later := by
  have hmiddle := hgraph.changes hchanges
  have hlater := hmiddle.changes h.changes
  refine hqueued.trans_of_no_return (h.advances hmiddle).queued fun node index id hid hlast => ?_
  rw [hlater.linked.listed_iff] at hlast
  rw [hmiddle.linked.listed_iff]
  cases hsource : middle.source? id with
  | none =>
    have hcounted := Nat.lt_of_lt_of_le (hgraph.lt_of_mem_listed hid)
      (Later.of_changes hchanges).nextConnection
    rw [(Later.of_changes h.changes).source?_eq_none hcounted hsource] at hlast
    cases hlast
  | some port =>
    rcases h.source hmiddle hsource with hsame | hgone
    · rw [← hsame, hlast]
    · rw [hgone] at hlast
      cases hlast

end Unmoved

/-! ### New connections -/

/-- Every port lists the connections that are new in the order of their creation. -/
def Renews (graph later : Graph) : Prop :=
  ∀ node index, (later.listed node index).Pairwise fun first second =>
    graph.source? first = none → graph.source? second = none → first.index < second.index

/-- No connections are new. -/
def Barren (graph later : Graph) : Prop := ∀ id, graph.source? id = none → later.source? id = none

/-- What is listed is in the table, so nothing listed is new there. -/
theorem Barren.renews (h : graph.Barren later) (hlater : later.Linked) : graph.Renews later := by
  refine fun node index => List.pairwise_of_forall_mem_list fun id hmem _ _ hnew _ => ?_
  rw [hlater.listed_iff, h id hnew] at hmem
  cases hmem

/-- What is new at the end is new at the middle. -/
theorem Renews.of_barren (h : graph.Barren middle) (h' : middle.Renews later) : graph.Renews later :=
  fun node index => (h' node index).imp fun horder hfirst hsecond =>
    horder (h _ hfirst) (h _ hsecond)

/-- Among changes that move nothing, every new connection was created after all that are listed. -/
theorem Unmoved.renews (h : graph.Unmoved later) (hgraph : graph.Coherent) : graph.Renews later := by
  induction h with
  | refl => exact Barren.renews (fun _ hnew => hnew) hgraph.linked
  | @tail middle last hbefore hlast ih =>
    intro node index
    have hmiddle := hgraph.changes (Unmoved.changes hbefore)
    obtain ⟨came, harrival, hlisted⟩ := hmiddle.arrival_of_change hlast.change node index
    have hkept := (ih node index).filter (· ∈ last.listed node index)
    rw [hlisted]
    rcases hlast.eq_of_arrival harrival with rfl | rfl
    · rwa [List.append_nil]
    · refine List.pairwise_append.mpr ⟨hkept, List.pairwise_singleton _ _, fun id hid new hnew _ _ => ?_⟩
      rw [List.mem_singleton.mp hnew]
      exact hmiddle.lt_of_mem_listed (List.mem_of_mem_filter hid)

end OpGraph.Graph
