import OpGraph.Proofs.Flow

/-!
# Names of requested outputs

A marker that is bypassed hands its name to the producer of its tensor, and a marker that stays
keeps it. Either way some node holds the name, but of several markers with the same holder only
the last one leaves its name there: every later one overwrites the name of the earlier ones.
-/

namespace OpGraph

open Edit

namespace Graph

/-- Exactly one output port of the node is used. -/
def UsesOneOutput (graph : Graph) (id : NodeId) : Prop :=
  ∃ node, graph.node? id = some node ∧ node.usedOutputs = 1

/-- Node to which the resolution of all markers gives the name of a marker. -/
inductive Holder (graph : Graph) : NodeId → NodeId → Prop where
  /-- A marker that reads another one shares its holder. -/
  | through {marker holder : NodeId} {source : PortRef}
      (reads : graph.inputSource? marker 0 = some source) (chained : graph.IsMarker source.node)
      (rest : Holder graph source.node holder) : Holder graph marker holder
  /-- A producer with one used output takes over the name. -/
  | producer {marker : NodeId} {source : PortRef}
      (reads : graph.inputSource? marker 0 = some source) (plain : ¬ graph.IsMarker source.node)
      (single : graph.UsesOneOutput source.node) : Holder graph marker source.node
  /-- A marker stays behind a producer with several used outputs. -/
  | stays {marker : NodeId} {source : PortRef}
      (reads : graph.inputSource? marker 0 = some source) (plain : ¬ graph.IsMarker source.node)
      (several : ¬ graph.UsesOneOutput source.node) : Holder graph marker marker

variable {imported graph result : Graph} {id marker holder : NodeId} {source : PortRef}

namespace Holder

/-- A marker has one holder only. -/
theorem unique {other : NodeId} (h : imported.Holder marker holder)
    (h' : imported.Holder marker other) : holder = other := by
  induction h with
  | through reads chained _ ih =>
    cases h' with
    | through reads' _ rest' =>
      rw [reads, Option.some.injEq] at reads'
      exact ih (reads' ▸ rest')
    | producer reads' plain' _ =>
      rw [reads, Option.some.injEq] at reads'
      exact absurd (reads' ▸ chained) plain'
    | stays reads' plain' _ =>
      rw [reads, Option.some.injEq] at reads'
      exact absurd (reads' ▸ chained) plain'
  | producer reads plain single =>
    cases h' with
    | through reads' chained' _ =>
      rw [reads, Option.some.injEq] at reads'
      exact absurd (reads' ▸ chained') plain
    | producer reads' _ _ =>
      rw [reads, Option.some.injEq] at reads'
      rw [reads']
    | stays reads' _ several' =>
      rw [reads, Option.some.injEq] at reads'
      exact absurd single (reads' ▸ several')
  | stays reads plain several =>
    cases h' with
    | through reads' chained' _ =>
      rw [reads, Option.some.injEq] at reads'
      exact absurd (reads' ▸ chained') plain
    | producer reads' _ single' =>
      rw [reads, Option.some.injEq] at reads'
      exact absurd (reads' ▸ single') several
    | stays _ _ _ => rfl

/-- A holder that is no marker uses one output. -/
theorem usesOneOutput (h : imported.Holder marker holder) (hmarker : imported.IsMarker marker)
    (hplain : ¬ imported.IsMarker holder) : imported.UsesOneOutput holder := by
  induction h with
  | through _ chained _ ih => exact ih chained hplain
  | producer _ _ single => exact single
  | stays _ _ _ => exact absurd hmarker hplain

/-- A holder that is a marker holds its own name. -/
theorem self (h : imported.Holder marker holder) (hholder : imported.IsMarker holder) :
    imported.Holder holder holder := by
  induction h with
  | through _ _ _ ih => exact ih hholder
  | producer _ plain _ => exact absurd hholder plain
  | stays reads plain several => exact .stays reads plain several

end Holder

/-- What the import says of markers: each has one input and one output, is fed by an earlier
node and feeds a node that is no marker. -/
structure Marked (imported : Graph) : Prop where
  /-- The records agree. -/
  coherent : imported.Coherent
  /-- One input and one output. -/
  ports : ∀ id bare, imported.bare? id = some bare → imported.IsMarker id →
    bare.inputs.length = 1 ∧ bare.outputs.length = 1
  /-- An earlier node feeds the marker. -/
  source : ∀ id, imported.IsMarker id → ∃ source, imported.inputSource? id 0 = some source ∧
    source.node.index < id.index
  /-- The marker feeds a node that is no marker. -/
  sink : ∀ id, imported.IsMarker id → ∃ sink index, ¬ imported.IsMarker sink ∧
    imported.inputSource? sink index = some (.output id 0)

namespace Marked

variable (h : imported.Marked)
include h

/-- A holder that is a marker comes first among the markers that it serves. -/
theorem index_le (hholder : imported.Holder marker holder) (hmarker : imported.IsMarker marker)
    (hself : imported.IsMarker holder) : holder.index ≤ marker.index := by
  induction hholder with
  | @through marker holder source reads chained _ ih =>
    obtain ⟨found, hfound, hbefore⟩ := h.source marker hmarker
    rw [reads, Option.some.injEq] at hfound
    have hle := ih chained hself
    rw [← hfound] at hbefore
    omega
  | producer _ plain _ => exact absurd hself plain
  | stays _ _ _ => exact Nat.le_refl _

/-- Every marker has a holder. -/
theorem exists_holder (hmarker : imported.IsMarker marker) :
    ∃ holder, imported.Holder marker holder := by
  obtain ⟨bound, hbound⟩ : ∃ bound, marker.index < bound := ⟨_, Nat.lt_succ_self _⟩
  induction bound generalizing marker with
  | zero => exact absurd hbound (Nat.not_lt_zero _)
  | succ bound ih =>
    obtain ⟨source, hsource, hbefore⟩ := h.source marker hmarker
    by_cases hchained : imported.IsMarker source.node
    · obtain ⟨holder, hholder⟩ := ih hchained (by omega)
      exact ⟨holder, .through hsource hchained hholder⟩
    · by_cases hsingle : imported.UsesOneOutput source.node
      · exact ⟨source.node, .producer hsource hchained hsingle⟩
      · exact ⟨marker, .stays hsource hchained hsingle⟩

end Marked

end Graph

/-- The markers of an imported graph. -/
theorem SourceModel.Laid.marked_graph {model : SourceModel} {extracted : List Extracted}
    {names : SourceNames} {imported : Graph}
    (h : Laid model extracted model.outputs names imported) : imported.Marked := by
  have hposition : ∀ id, imported.IsMarker id →
      ∃ position output, id = model.marker position ∧
        Placed model names imported position output := fun id hmarker => by
    obtain ⟨node, hn, htype⟩ := hmarker
    obtain ⟨position, hlt, rfl⟩ := h.marked id node.bare (Graph.bare?_of_node? hn) htype
    exact ⟨position, _, rfl, h.placed position _ (List.getElem?_eq_getElem hlt)⟩
  refine ⟨h.coherent, fun id bare hbare hmarker => ?_, fun id hmarker => ?_, fun id hmarker => ?_⟩
  · obtain ⟨position, output, rfl, hplaced⟩ := hposition id hmarker
    obtain ⟨own, hown, _, hports⟩ := hplaced.marker
    rw [hbare, Option.some.injEq] at hown
    exact hown ▸ hports
  · obtain ⟨position, output, rfl, hplaced⟩ := hposition id hmarker
    obtain ⟨source, _, hbefore, hfeed⟩ := hplaced.requested
    exact ⟨_, hfeed, hbefore⟩
  · obtain ⟨position, output, rfl, hplaced⟩ := hposition id hmarker
    refine ⟨model.sink position, 0, fun hsinkMarker => ?_, hplaced.delivered⟩
    obtain ⟨node, hn, htype⟩ := hsinkMarker
    have hsink := hplaced.sink
    rw [Graph.bare?, hn] at hsink
    exact absurd (htype.symm.trans (Option.some.inj hsink)) (by simp)

namespace Graph

variable {imported graph result : Graph} {id marker holder : NodeId} {source : PortRef} {bound : Nat}

/-- The marker is among those with numbers below the bound. -/
def Done (imported : Graph) (bound : Nat) (id : NodeId) : Prop :=
  imported.IsMarker id ∧ id.index < bound

/-- The node outlasts the resolution of the markers below the bound. -/
def Stays (imported : Graph) (bound : Nat) (id : NodeId) : Prop :=
  imported.Done bound id → imported.Holder id id

/-- The graph after the markers with numbers below the bound were resolved. -/
structure Transferred (imported : Graph) (bound : Nat) (graph : Graph) : Prop where
  /-- The records agree. -/
  coherent : graph.Coherent
  /-- A marker that does not hold its own name is gone. -/
  gone : ∀ id, ¬ imported.Stays bound id → graph.node? id = none
  /-- Other nodes are there with their ports, and those not resolved yet have their types. -/
  stays : ∀ id bare, imported.bare? id = some bare → imported.Stays bound id →
    ∃ now, graph.bare? id = some now ∧ now.inputs.length = bare.inputs.length ∧
      now.outputs.length = bare.outputs.length ∧
        (¬ imported.Done bound id → now.opType = bare.opType)
  /-- What a marker that is not resolved or any other node fed it feeds still. -/
  feed : ∀ node index port, imported.Stays bound node →
    imported.inputSource? node index = some port → ¬ imported.Done bound port.node →
      graph.inputSource? node index = some port
  /-- What a resolved marker fed is fed by its holder. -/
  handed : ∀ node index port, imported.Stays bound node →
    imported.inputSource? node index = some port → imported.Done bound port.node →
      ∃ now, graph.inputSource? node index = some now ∧ imported.Holder port.node now.node
  /-- A node that holds no name of a resolved marker has its own. -/
  own : ∀ id, imported.Stays bound id →
    (∀ marker, imported.Done bound marker → ¬ imported.Holder marker id) →
      graph.nameOf? id = imported.nameOf? id
  /-- A holder has the name of the last resolved marker that it serves. -/
  last : ∀ id marker, imported.Done bound marker → imported.Holder marker id →
    (∀ other, imported.Done bound other → imported.Holder other id → other.index ≤ marker.index) →
      graph.nameOf? id = imported.nameOf? marker
  /-- The number of used outputs of a node that is no marker has not passed one. -/
  used : ∀ id, ¬ imported.IsMarker id → (graph.UsesOneOutput id ↔ imported.UsesOneOutput id)
  /-- A marker that was resolved and stays uses its one output. -/
  identity : ∀ id, imported.Done bound id → imported.Holder id id → graph.UsesOneOutput id

/-! ### One step -/

/-- A node with a single output that feeds something uses one output. -/
theorem usesOneOutput_of_feeds (h : graph.Coherent) {bare : Node} (hbare : graph.bare? id = some bare)
    (houtputs : bare.outputs.length = 1) (hfeeds : graph.Feeds (.output id 0)) :
    graph.UsesOneOutput id := by
  obtain ⟨node, hn, rfl⟩ := Option.map_eq_some_iff.mp hbare
  have hlength : node.outputs.length = 1 := by simpa [Node.bare] using houtputs
  obtain ⟨port, hport⟩ := List.length_eq_one_iff.mp hlength
  have hlisted := (h.linked.listed_ne_nil_iff 0).mpr hfeeds
  have hconnections : port.connections ≠ [] := by
    simpa [listed, Node.listed, hn, hport] using hlisted
  refine ⟨node, hn, ?_⟩
  simp [Node.usedOutputs, hport, OutputPort.isDisconnected, hconnections]

/-- A bypass of a marker that feeds something leaves all other ports as used as they were. -/
theorem feeds_iff_of_bypassed {name : String} (h : Bypassed graph marker name source result)
    (hsource : graph.inputSource? marker 0 = some source)
    (hinput : ∀ index port, graph.inputSource? marker index = some port → index = 0)
    (hfeeds : ∃ node index port, node ≠ marker ∧ graph.inputSource? node index = some port ∧
      port.node = marker)
    {port : PortRef} (hport : port.node ≠ marker) : result.Feeds port ↔ graph.Feeds port := by
  constructor
  · rintro ⟨node, index, hfeed⟩
    rw [h.inputSource node (h.ne_of_inputSource? hfeed)] at hfeed
    obtain ⟨before, hbefore, heq⟩ := Option.map_eq_some_iff.mp hfeed
    by_cases hthrough : before.node = marker
    · rw [PortRef.redirect, if_pos hthrough] at heq
      exact ⟨marker, 0, heq ▸ hsource⟩
    · rw [PortRef.redirect, if_neg hthrough] at heq
      exact ⟨node, index, heq ▸ hbefore⟩
  · rintro ⟨node, index, hfeed⟩
    by_cases hnode : node = marker
    · subst hnode
      have hindex := hinput index port hfeed
      subst hindex
      rw [hfeed, Option.some.injEq] at hsource
      obtain ⟨reader, position, through, hreader, hread, hthrough⟩ := hfeeds
      refine ⟨reader, position, ?_⟩
      rw [h.inputSource reader hreader, hread, Option.map_some, PortRef.redirect, if_pos hthrough,
        hsource]
    · refine ⟨node, index, ?_⟩
      rw [h.inputSource node hnode, hfeed, Option.map_some, PortRef.redirect, if_neg hport]

/-- A bypass of a marker that feeds something changes how many outputs are used at no other
node. -/
theorem usesOneOutput_iff_of_bypassed {name : String} (hgraph : graph.Coherent)
    (hresult : result.Coherent) (h : Bypassed graph marker name source result)
    (hsource : graph.inputSource? marker 0 = some source)
    (hinput : ∀ index port, graph.inputSource? marker index = some port → index = 0)
    (hfeeds : ∃ node index port, node ≠ marker ∧ graph.inputSource? node index = some port ∧
      port.node = marker) (hid : id ≠ marker) :
    result.UsesOneOutput id ↔ graph.UsesOneOutput id := by
  have hfeed : ∀ index, result.Feeds (.output id index) ↔ graph.Feeds (.output id index) :=
    fun index => feeds_iff_of_bypassed h hsource hinput hfeeds hid
  cases hn : graph.node? id with
  | none =>
    have hnone : result.node? id = none := by
      rw [← bare?_eq_none_iff, h.bare id hid, bare?_eq_none_iff.mpr hn]
      split <;> rfl
    simp [UsesOneOutput, hn, hnone]
  | some node =>
    have hold : graph.bare? id = some node.bare := Graph.bare?_of_node? hn
    obtain ⟨now, hnow, hsame⟩ := h.exists_after hid hold
    have hlength : now.outputs.length = node.bare.outputs.length := by rw [hsame]
    obtain ⟨node', hn', rfl⟩ := Option.map_eq_some_iff.mp hnow
    have hcount := usedOutputs_congr hgraph.linked hresult.linked hn hn'
      (by simpa [Node.bare] using hlength) hfeed
    simp [UsesOneOutput, hn, hn', hcount]

namespace Transferred

variable (h : imported.Transferred marker.index graph) (himported : imported.Marked)
  (hmarker : imported.IsMarker marker)
include h himported hmarker

omit h himported hmarker in
/-- After a marker come the markers with greater numbers. -/
theorem done_succ_iff (hmarker : imported.IsMarker marker) :
    imported.Done (marker.index + 1) id ↔ imported.Done marker.index id ∨ id = marker := by
  unfold Done
  constructor
  · rintro ⟨hid, hlt⟩
    by_cases heq : id = marker
    · exact .inr heq
    · refine .inl ⟨hid, ?_⟩
      have hne : id.index ≠ marker.index := fun hindex => heq (by
        cases id
        cases marker
        simpa using hindex)
      omega
  · rintro (⟨hid, hlt⟩ | rfl)
    · exact ⟨hid, by omega⟩
    · exact ⟨hmarker, Nat.lt_succ_self _⟩

omit h himported hmarker in
theorem not_done_self : ¬ imported.Done marker.index marker := fun h => Nat.lt_irrefl _ h.2

omit h himported hmarker in
theorem stays_self : imported.Stays marker.index marker := fun h => absurd h not_done_self

omit h himported in
/-- A node that outlasts the marker outlasted the markers before it. -/
theorem stays_of_stays_succ (hstays : imported.Stays (marker.index + 1) id) :
    imported.Stays marker.index id :=
  fun hdone => hstays ((done_succ_iff hmarker).mpr (.inl hdone))

omit h in
/-- No earlier marker has this one as its holder. -/
theorem not_holder_of_done {other : NodeId} (hother : imported.Done marker.index other) :
    ¬ imported.Holder other marker := fun hholder => by
  have hle := himported.index_le hholder hother.1 hmarker
  have hlt := hother.2
  omega

/-- When its turn comes a marker has one input. -/
theorem index_eq_zero (index : Nat) (port : PortRef)
    (hfeed : graph.inputSource? marker index = some port) : index = 0 := by
  obtain ⟨node, hn, htype⟩ := hmarker
  have hbare : imported.bare? marker = some node.bare := Graph.bare?_of_node? hn
  obtain ⟨now, hnow, hinputs, _, _⟩ := h.stays marker _ hbare stays_self
  have hone := (himported.ports marker _ hbare ⟨node, hn, htype⟩).1
  have hlt := lt_of_inputSource? hfeed hnow
  omega

/-- When its turn comes a marker feeds a node that is no marker. -/
theorem exists_reader : ∃ reader index, ¬ imported.IsMarker reader ∧
    graph.inputSource? reader index = some (.output marker 0) := by
  obtain ⟨reader, index, hreader, hread⟩ := himported.sink marker hmarker
  have hstays : imported.Stays marker.index reader := fun hdone => absurd hdone.1 hreader
  exact ⟨reader, index, hreader, h.feed reader index _ hstays hread not_done_self⟩

/-- When its turn comes a marker is fed. -/
theorem exists_source : ∃ source, graph.inputSource? marker 0 = some source := by
  obtain ⟨first, hfirst, hbefore⟩ := himported.source marker hmarker
  by_cases hchained : imported.IsMarker first.node
  · obtain ⟨now, hnow, _⟩ := h.handed marker 0 first stays_self hfirst ⟨hchained, hbefore⟩
    exact ⟨now, hnow⟩
  · exact ⟨first, h.feed marker 0 first stays_self hfirst fun hdone => hchained hdone.1⟩

/-- The name of the marker goes to its producer if that uses one output, and stays otherwise. -/
theorem holder_of_source (hsource : graph.inputSource? marker 0 = some source) :
    (graph.UsesOneOutput source.node →
      imported.Holder marker source.node ∧ source.node ≠ marker) ∧
    (¬ graph.UsesOneOutput source.node → imported.Holder marker marker) := by
  obtain ⟨first, hfirst, hbefore⟩ := himported.source marker hmarker
  by_cases hchained : imported.IsMarker first.node
  · obtain ⟨now, hnow, hholder⟩ :=
      h.handed marker 0 first stays_self hfirst ⟨hchained, hbefore⟩
    rw [hsource, Option.some.injEq] at hnow
    subst hnow
    have hone : graph.UsesOneOutput source.node := by
      by_cases hself : imported.IsMarker source.node
      · have hle := himported.index_le hholder hchained hself
        exact h.identity source.node ⟨hself, by omega⟩ (hholder.self hself)
      · exact (h.used source.node hself).mpr (hholder.usesOneOutput hchained hself)
    refine ⟨fun _ => ⟨.through hfirst hchained hholder, fun heq => ?_⟩, absurd hone⟩
    exact not_holder_of_done himported hmarker ⟨hchained, hbefore⟩ (heq ▸ hholder)
  · have hfeed := h.feed marker 0 first stays_self hfirst fun hdone => hchained hdone.1
    rw [hsource, Option.some.injEq] at hfeed
    subst hfeed
    have hused := h.used source.node hchained
    refine ⟨fun hone => ⟨.producer hfirst hchained (hused.mp hone), fun heq => ?_⟩, fun hseveral =>
      .stays hfirst hchained fun hone => hseveral (hused.mpr hone)⟩
    rw [heq] at hbefore
    exact Nat.lt_irrefl _ hbefore

/-- After a bypass the producer has the name of the marker, which is the last one that it serves so
far, and other holders have the names that they had. -/
theorem last_of_bypassed {name : String} (hname : imported.nameOf? marker = some name)
    (hsource : graph.inputSource? marker 0 = some source)
    (hholder : imported.Holder marker source.node) (hother : source.node ≠ marker)
    (hbypass : Bypassed graph marker name source result) (id last : NodeId)
    (hlast : imported.Done (marker.index + 1) last) (hserves : imported.Holder last id)
    (hmax : ∀ other, imported.Done (marker.index + 1) other → imported.Holder other id →
      other.index ≤ last.index) : result.nameOf? id = imported.nameOf? last := by
  have hdone : ∀ id, imported.Done (marker.index + 1) id ↔
      imported.Done marker.index id ∨ id = marker := fun id => done_succ_iff hmarker
  have hid : id ≠ marker := by
    rintro rfl
    rcases (hdone _).mp hlast with hearlier | rfl
    · exact not_holder_of_done himported hmarker hearlier hserves
    · exact hother (hholder.unique hserves)
  rw [hbypass.nameOf? hid]
  by_cases hsame : id = source.node
  · have heq : last = marker := by
      have hle := hmax marker ((hdone _).mpr (.inr rfl)) (hsame ▸ hholder)
      rcases (hdone _).mp hlast with hearlier | heq
      · exact absurd hearlier.2 (Nat.not_lt.mpr hle)
      · exact heq
    obtain ⟨producer, hproducer, _⟩ := h.coherent.hasPort_of_inputSource? hsource
    rw [if_pos hsame, heq, hname, hsame, nameOf?, hproducer]
    rfl
  · rw [if_neg hsame]
    have hearlier : imported.Done marker.index last := by
      rcases (hdone _).mp hlast with hearlier | rfl
      · exact hearlier
      · exact absurd (hserves.unique hholder) hsame
    exact h.last id last hearlier hserves fun other hother =>
      hmax other ((hdone _).mpr (.inl hother))

/-- One more marker is bypassed. -/
theorem bypass {name : String} (hname : imported.nameOf? marker = some name)
    (hresult : result.Coherent) (hsource : graph.inputSource? marker 0 = some source)
    (hholder : imported.Holder marker source.node) (hother : source.node ≠ marker)
    (hbypass : Bypassed graph marker name source result) :
    imported.Transferred (marker.index + 1) result := by
  have hdone : ∀ id, imported.Done (marker.index + 1) id ↔
      imported.Done marker.index id ∨ id = marker := fun id => done_succ_iff hmarker
  have hleaves : ¬ imported.Stays (marker.index + 1) marker := fun hstays =>
    hother (hholder.unique (hstays ((hdone marker).mpr (.inr rfl))))
  have hne : ∀ id, imported.Stays (marker.index + 1) id → id ≠ marker := by
    rintro id hstays rfl
    exact hleaves hstays
  have hstays : ∀ id, imported.Stays (marker.index + 1) id → imported.Stays marker.index id :=
    fun id => stays_of_stays_succ hmarker
  have hreader := h.exists_reader himported hmarker
  have hused : ∀ id, id ≠ marker → (result.UsesOneOutput id ↔ graph.UsesOneOutput id) :=
    fun id hid => by
      obtain ⟨reader, index, hplain, hread⟩ := hreader
      exact usesOneOutput_iff_of_bypassed h.coherent hresult hbypass hsource
        (h.index_eq_zero himported hmarker)
        ⟨reader, index, _, fun heq => hplain (heq ▸ hmarker), hread, rfl⟩ hid
  exact {
    coherent := hresult
    gone := fun id hgone => by
      by_cases hid : id = marker
      · rw [hid, hbypass.gone]
      · have hbefore : ¬ imported.Stays marker.index id := fun hstay => hgone fun hdone' => by
          rcases (hdone id).mp hdone' with hdone' | heq
          · exact hstay hdone'
          · exact absurd heq hid
        rw [← bare?_eq_none_iff, hbypass.bare id hid, bare?_eq_none_iff.mpr (h.gone id hbefore)]
        split <;> rfl
    stays := fun id bare hbare hkept => by
      obtain ⟨now, hnow, hinputs, houtputs, htype⟩ := h.stays id bare hbare (hstays id hkept)
      obtain ⟨later, hlater, hsame⟩ := hbypass.exists_after (hne id hkept) hnow
      rw [hsame] at hlater
      exact ⟨_, hlater, hinputs, houtputs, fun hnot =>
        htype fun hbefore => hnot ((hdone id).mpr (.inl hbefore))⟩
    feed := fun node index port hkept hport hnot => by
      have hunresolved : port.node ≠ marker := fun heq => hnot ((hdone _).mpr (.inr heq))
      have hbefore := h.feed node index port (hstays node hkept) hport fun hearlier =>
        hnot ((hdone _).mpr (.inl hearlier))
      rw [hbypass.inputSource node (hne node hkept), hbefore, Option.map_some, PortRef.redirect,
        if_neg hunresolved]
    handed := fun node index port hkept hport hthrough => by
      rw [hbypass.inputSource node (hne node hkept)]
      rcases (hdone _).mp hthrough with hearlier | heq
      · obtain ⟨now, hnow, hholds⟩ := h.handed node index port (hstays node hkept) hport hearlier
        refine ⟨now, ?_, hholds⟩
        rw [hnow, Option.map_some, PortRef.redirect, if_neg]
        rintro rfl
        exact not_holder_of_done himported hmarker hearlier hholds
      · have hbefore := h.feed node index port (hstays node hkept) hport
          (heq ▸ not_done_self)
        refine ⟨source, ?_, heq ▸ hholder⟩
        rw [hbefore, Option.map_some, PortRef.redirect, if_pos heq]
    own := fun id hkept hnone => by
      have hid : id ≠ source.node := fun heq =>
        hnone marker ((hdone _).mpr (.inr rfl)) (heq ▸ hholder)
      rw [hbypass.nameOf? (hne id hkept), if_neg hid]
      exact h.own id (hstays id hkept) fun other hother =>
        hnone other ((hdone _).mpr (.inl hother))
    last := h.last_of_bypassed himported hmarker hname hsource hholder hother hbypass
    used := fun id hplain => by
      rw [hused id fun heq => hplain (heq ▸ hmarker)]
      exact h.used id hplain
    identity := fun id hid hself => by
      have hid' : id ≠ marker := by
        rintro rfl
        exact hother (hholder.unique hself)
      rw [hused id hid']
      rcases (hdone _).mp hid with hearlier | heq
      · exact h.identity id hearlier hself
      · exact absurd heq hid' }

/-- One more marker becomes an identity. -/
theorem identity_step (hholder : imported.Holder marker marker) :
    imported.Transferred (marker.index + 1)
      (graph.modifyNode marker ({ · with opType := "Identity" })) := by
  have hdone : ∀ id, imported.Done (marker.index + 1) id ↔
      imported.Done marker.index id ∨ id = marker := fun id => done_succ_iff hmarker
  have hstays : ∀ id, imported.Stays (marker.index + 1) id → imported.Stays marker.index id :=
    fun id => stays_of_stays_succ hmarker
  have hneutral := Node.Neutral.setOpType "Identity"
  have hnode : ∀ id, (graph.modifyNode marker ({ · with opType := "Identity" })).node? id =
      if id = marker then (graph.node? id).map ({ · with opType := "Identity" })
      else graph.node? id := fun id => graph.node?_modifyNode marker id _
  have hname : ∀ id, (graph.modifyNode marker ({ · with opType := "Identity" })).nameOf? id =
      graph.nameOf? id := nameOf?_modifyNode hneutral.name
  have hused : ∀ id, (graph.modifyNode marker ({ · with opType := "Identity" })).UsesOneOutput id ↔
      graph.UsesOneOutput id := fun id => by
    unfold UsesOneOutput
    rw [hnode]
    split
    · cases graph.node? id <;> simp [Node.usedOutputs]
    · rfl
  exact {
    coherent := h.coherent.change (.modifyNode marker hneutral)
    gone := fun id hgone => by
      have hbefore : ¬ imported.Stays marker.index id := fun hstay => hgone fun hdone' => by
        rcases (hdone id).mp hdone' with hdone' | rfl
        · exact hstay hdone'
        · exact hholder
      rw [hnode, h.gone id hbefore]
      split <;> rfl
    stays := fun id bare hbare hkept => by
      obtain ⟨now, hnow, hinputs, houtputs, htype⟩ := h.stays id bare hbare (hstays id hkept)
      rw [bare?_modifyNode (g := ({ · with opType := "Identity" })) fun _ => rfl, hnow]
      split
      · rename_i hid
        exact ⟨_, rfl, hinputs, houtputs, fun hnot => absurd ((hdone id).mpr (.inr hid)) hnot⟩
      · exact ⟨_, rfl, hinputs, houtputs, fun hnot => htype fun hearlier =>
          hnot ((hdone id).mpr (.inl hearlier))⟩
    feed := fun node index port hkept hport hnot => by
      rw [inputSource?_modifyNode hneutral]
      exact h.feed node index port (hstays node hkept) hport fun hearlier =>
        hnot ((hdone _).mpr (.inl hearlier))
    handed := fun node index port hkept hport hthrough => by
      rw [inputSource?_modifyNode hneutral]
      rcases (hdone _).mp hthrough with hearlier | heq
      · exact h.handed node index port (hstays node hkept) hport hearlier
      · exact ⟨port, h.feed node index port (hstays node hkept) hport (heq ▸ not_done_self),
          heq ▸ hholder⟩
    own := fun id hkept hnone => by
      rw [hname]
      exact h.own id (hstays id hkept) fun other hother =>
        hnone other ((hdone _).mpr (.inl hother))
    last := fun id last hlast hserves hmax => by
      rw [hname]
      rcases (hdone _).mp hlast with hearlier | rfl
      · exact h.last id last hearlier hserves fun other hother =>
          hmax other ((hdone _).mpr (.inl hother))
      · rw [← hholder.unique hserves]
        exact h.own last stays_self fun other hother =>
          not_holder_of_done himported hmarker hother
    used := fun id hplain => (hused id).trans (h.used id hplain)
    identity := fun id hid hself => by
      rw [hused]
      rcases (hdone _).mp hid with hearlier | rfl
      · exact h.identity id hearlier hself
      · obtain ⟨node, hn, htype⟩ := hmarker
        have hbare : imported.bare? id = some node.bare := Graph.bare?_of_node? hn
        obtain ⟨now, hnow, _, houtputs, _⟩ := h.stays id _ hbare stays_self
        obtain ⟨reader, index, _, hread⟩ := h.exists_reader himported ⟨node, hn, htype⟩
        rw [(himported.ports id _ hbare ⟨node, hn, htype⟩).2] at houtputs
        exact usesOneOutput_of_feeds h.coherent hnow houtputs ⟨reader, index, hread⟩ }

/-- The turn of one marker. -/
theorem turn {verify : Bool} {stats next : PassStats}
    (hrun : (Pass.outputMarkers.applyTo verify stats ⟨[("fake", marker)]⟩).run graph =
      .ok next result) : imported.Transferred (marker.index + 1) result := by
  obtain ⟨node, hn, htype⟩ := hmarker
  have hmarker : imported.IsMarker marker := ⟨node, hn, htype⟩
  have hbare : imported.bare? marker = some node.bare := Graph.bare?_of_node? hn
  obtain ⟨bare, hthere, _, _, hstill⟩ := h.stays marker _ hbare stays_self
  obtain ⟨now, hnow, rfl⟩ := Option.map_eq_some_iff.mp hthere
  have hopType : now.opType = "FakeOutput" := (hstill not_done_self).trans htype
  have hmatches : Pass.outputMarkers.pattern.stillMatches graph ⟨[("fake", marker)]⟩ = true :=
    (Pattern.stillMatches_of_isSingle (Pattern.isSingle_single _ _)).mpr
      ⟨"fake", marker, now, rfl, hnow, by simp [NodePattern.accepts, hopType]⟩
  rcases run_applyTo_eq_ok hrun with ⟨hstale, _⟩ | ⟨_, happly⟩
  · rw [hmatches] at hstale
    cases hstale
  · have hchanges := (changes_resolveMarker _ h.coherent).ensures graph _ _ .refl happly
    obtain ⟨id, found, source, producer, hid, hfound, hsource, hproducer, hresolved⟩ :=
      resolved_of_run h.coherent happly
    cases hid
    obtain ⟨hone, hseveral⟩ := h.holder_of_source himported hmarker hsource
    cases hresolved with
    | bypassed single bypassed =>
      obtain ⟨hholder, hother⟩ := hone ⟨producer, hproducer, single⟩
      refine h.bypass himported hmarker ?_ (h.coherent.changes hchanges) hsource hholder hother
        bypassed
      rw [← h.own marker stays_self fun other hother => not_holder_of_done himported hmarker hother,
        nameOf?, hfound]
      rfl
    | identity several changed =>
      subst changed
      refine h.identity_step himported hmarker (hseveral fun hsingle => ?_)
      obtain ⟨other, hother, hsingle⟩ := hsingle
      rw [hproducer, Option.some.injEq] at hother
      exact several (hother ▸ hsingle)

end Transferred

/-! ### The whole run -/

namespace Transferred

/-- Before the first marker is resolved. -/
theorem start (himported : imported.Marked) : imported.Transferred 0 imported where
  coherent := himported.coherent
  gone _ hgone := absurd (fun hdone => absurd hdone.2 (Nat.not_lt_zero _)) hgone
  stays _ bare hbare _ := ⟨bare, hbare, rfl, rfl, fun _ => rfl⟩
  feed _ _ _ _ hport _ := hport
  handed _ _ _ _ _ hdone := absurd hdone.2 (Nat.not_lt_zero _)
  own _ _ _ := rfl
  last _ _ hdone _ _ := absurd hdone.2 (Nat.not_lt_zero _)
  used _ _ := Iff.rfl
  identity _ hdone _ := absurd hdone.2 (Nat.not_lt_zero _)

/-- The bound may move as long as it passes no marker. -/
theorem congr {other : Nat} (h : imported.Transferred bound graph)
    (hsame : ∀ id, imported.IsMarker id → (id.index < bound ↔ id.index < other)) :
    imported.Transferred other graph := by
  have hdone : imported.Done other = imported.Done bound := by
    funext id
    exact propext ⟨fun h => ⟨h.1, (hsame id h.1).mpr h.2⟩, fun h => ⟨h.1, (hsame id h.1).mp h.2⟩⟩
  have hstays : imported.Stays other = imported.Stays bound := by
    funext id
    rw [Stays, Stays, hdone]
  constructor
  · exact h.coherent
  · rw [hstays]
    exact h.gone
  · rw [hstays, hdone]
    exact h.stays
  · rw [hstays, hdone]
    exact h.feed
  · rw [hstays, hdone]
    exact h.handed
  · rw [hstays, hdone]
    exact h.own
  · rw [hdone]
    exact h.last
  · exact h.used
  · rw [hdone]
    exact h.identity

/-- Of the markers that are left the first one is ready for its turn, and the others come after. -/
theorem ready {tail : List NodeId} (h : imported.Transferred bound graph)
    (hrest : ∀ id, id ∈ marker :: tail ↔ imported.IsMarker id ∧ bound ≤ id.index)
    (hsorted : (marker :: tail).Pairwise fun first second => first.index < second.index) :
    imported.IsMarker marker ∧ imported.Transferred marker.index graph ∧
      ∀ id, id ∈ tail ↔ imported.IsMarker id ∧ marker.index + 1 ≤ id.index := by
  obtain ⟨hbefore, _⟩ := List.pairwise_cons.mp hsorted
  obtain ⟨hmarker, hbound⟩ := (hrest marker).mp (by simp)
  have hnext : ∀ id, imported.IsMarker id → bound ≤ id.index → marker.index ≤ id.index :=
    fun id hid hge => by
      rcases List.mem_cons.mp ((hrest id).mpr ⟨hid, hge⟩) with rfl | hmem
      · exact Nat.le_refl _
      · exact Nat.le_of_lt (hbefore id hmem)
  refine ⟨hmarker, h.congr fun id hid => ⟨fun hlt => by omega, fun hlt => ?_⟩, fun id => ⟨?_, ?_⟩⟩
  · by_contra hge
    exact absurd (hnext id hid (Nat.not_lt.mp hge)) (Nat.not_le.mpr hlt)
  · intro hmem
    obtain ⟨hid, _⟩ := (hrest id).mp (List.mem_cons_of_mem marker hmem)
    exact ⟨hid, hbefore id hmem⟩
  · rintro ⟨hid, hge⟩
    rcases List.mem_cons.mp ((hrest id).mpr ⟨hid, by omega⟩) with rfl | hmem
    · exact absurd hge (Nat.not_le.mpr (Nat.lt_succ_self _))
    · exact hmem

/-- The turns of all markers that are left, in the order of their numbers. -/
theorem turns {rest : List NodeId} {verify : Bool} {stats next : PassStats}
    (h : imported.Transferred bound graph) (himported : imported.Marked)
    (hrest : ∀ id, id ∈ rest ↔ imported.IsMarker id ∧ bound ≤ id.index)
    (hsorted : rest.Pairwise fun first second => first.index < second.index)
    (hrun : ((rest.map fun id => (⟨[("fake", id)]⟩ : Match)).foldlM
      (Pass.outputMarkers.applyTo verify) stats).run graph = .ok next result) :
    ∃ bound, (∀ id, imported.IsMarker id → id.index < bound) ∧
      imported.Transferred bound result := by
  induction rest generalizing bound graph stats with
  | nil =>
    cases hrun
    refine ⟨bound, fun id hid => ?_, h⟩
    by_contra hge
    exact absurd ((hrest id).mpr ⟨hid, Nat.not_lt.mp hge⟩) (by simp)
  | cons marker tail ih =>
    obtain ⟨hmarker, hready, htail⟩ := h.ready hrest hsorted
    rw [List.map_cons, List.foldlM_cons] at hrun
    obtain ⟨first, middle, hturn, hrun⟩ := run_bind_eq_ok.mp hrun
    exact ih (hready.turn himported hmarker hturn) htail (List.pairwise_cons.mp hsorted).2 hrun

end Transferred

/-- A run of the marker pass takes the markers in the order of their numbers. -/
theorem Coherent.exists_markers (h : imported.Coherent) (verify : Bool) :
    ∃ (markers : List NodeId) (stats : PassStats), (∀ id, id ∈ markers ↔ imported.IsMarker id) ∧
      markers.Pairwise (fun first second => first.index < second.index) ∧
        (Pass.outputMarkers.run verify).run imported =
          ((markers.map fun id => (⟨[("fake", id)]⟩ : Match)).foldlM
            (Pass.outputMarkers.applyTo verify) stats).run imported := by
  have hmatches : Pass.outputMarkers.pattern.findAll imported =
      (Pattern.candidates imported ⟨"fake", some "FakeOutput", []⟩).map
        fun id => ⟨[("fake", id)]⟩ := Pattern.findAll_of_isSingle (Pattern.isSingle_single _ _) _
  refine ⟨Pattern.candidates imported ⟨"fake", some "FakeOutput", []⟩,
    { PassStats.empty with
      passes := 1
      found := (Pass.outputMarkers.pattern.findAll imported).length }, fun id => ?_, ?_, ?_⟩
  · simp only [Pattern.candidates, List.mem_map, List.mem_filter, NodePattern.accepts, Prod.exists,
      Option.all_some, List.all_nil, Bool.and_true, decide_eq_true_eq, exists_and_right,
      exists_eq_right, IsMarker, node?, OrderedMap.get?_eq_some_iff]
  · have hsorted := List.pairwise_map.mp h.registered.counted.1
    exact hsorted.sublist (List.filter_sublist.map Prod.fst)
  · rw [← hmatches]
    rfl

/-- All markers are resolved. -/
theorem Marked.transferred_of_run (himported : imported.Marked) {verify : Bool} {stats : PassStats}
    (hrun : (Pass.outputMarkers.run verify).run imported = .ok stats result) :
    ∃ bound, (∀ id, imported.IsMarker id → id.index < bound) ∧
      imported.Transferred bound result := by
  obtain ⟨markers, _, hmem, hsorted, hturns⟩ := himported.coherent.exists_markers verify
  rw [hturns] at hrun
  refine (Transferred.start himported).turns himported (fun id => ?_) hsorted hrun
  rw [hmem id]
  exact ⟨fun hid => ⟨hid, Nat.zero_le _⟩, fun h => h.1⟩

namespace Transferred

variable (h : imported.Transferred bound graph) (himported : imported.Marked)
  (hbound : ∀ id, imported.IsMarker id → id.index < bound)
include h

/-- A node that is there outlasts the markers. -/
theorem stays_of_isSome (hid : (graph.node? id).isSome = true) : imported.Stays bound id := by
  by_contra hgone
  rw [h.gone id hgone] at hid
  cases hid

omit h in
/-- Among the resolved markers with one holder there is a last one. -/
theorem exists_last (hmarker : imported.Done bound marker) (hholder : imported.Holder marker holder) :
    ∃ last, imported.Done bound last ∧ imported.Holder last holder ∧
      ∀ other, imported.Done bound other → imported.Holder other holder →
        other.index ≤ last.index := by
  obtain ⟨gap, hgap⟩ : ∃ gap, bound ≤ marker.index + gap := ⟨bound, by omega⟩
  induction gap generalizing marker with
  | zero => exact absurd hmarker.2 (by omega)
  | succ gap ih =>
    by_cases hlast : ∀ other, imported.Done bound other → imported.Holder other holder →
        other.index ≤ marker.index
    · exact ⟨marker, hmarker, hholder, hlast⟩
    · push Not at hlast
      obtain ⟨other, hother, hserves, hlt⟩ := hlast
      exact ih hother hserves (by omega)

include himported hbound

omit himported in
/-- The name of the last marker with a holder leads to the holder. -/
theorem idOf?_last {name : String} (hmarker : imported.IsMarker marker)
    (hname : imported.nameOf? marker = some name) (hholder : imported.Holder marker holder)
    (hlast : ∀ later, imported.IsMarker later → marker.index < later.index →
      ¬ imported.Holder later holder) : graph.idOf? name = some holder := by
  rw [h.coherent.registered.named, ← hname]
  refine h.last holder marker ⟨hmarker, hbound marker hmarker⟩ hholder fun other hother hserves => ?_
  by_contra hgt
  exact hlast other hother.1 (Nat.not_le.mp hgt) hserves

omit hbound in
/-- What reads the last marker with a holder is no marker that is bypassed. -/
theorem isSome_of_reads {consumer : NodeId} {index : Nat} {port : PortRef}
    (hholder : imported.Holder marker holder) (hmarker : imported.IsMarker marker)
    (hlast : ∀ later, imported.IsMarker later → marker.index < later.index →
      ¬ imported.Holder later holder)
    (hport : imported.inputSource? consumer index = some port) (hthrough : port.node = marker) :
    (graph.node? consumer).isSome = true := by
  obtain ⟨bare, hbare⟩ := Option.isSome_iff_exists.mp (node?_isSome_of_inputSource? hport)
  have hbare : imported.bare? consumer = some bare.bare := Graph.bare?_of_node? hbare
  have hstays : imported.Stays bound consumer := fun hdone => by
    have hindex : index = 0 := by
      have hlt := lt_of_inputSource? hport hbare
      rw [(himported.ports consumer _ hbare hdone.1).1] at hlt
      omega
    subst hindex
    obtain ⟨source, hsource, hbefore⟩ := himported.source consumer hdone.1
    rw [hport, Option.some.injEq] at hsource
    rw [← hsource, hthrough] at hbefore
    exact absurd (.through hport (hthrough ▸ hmarker) (hthrough ▸ hholder))
      (hlast consumer hdone.1 hbefore)
  obtain ⟨now, hnow, _⟩ := h.stays consumer _ hbare hstays
  rw [← isSome_bare?, hnow]
  rfl

/-- The name of a marker that is followed by another one with the same holder leads nowhere. -/
theorem idOf?_overwritten {name : String} {later : NodeId} (hmarker : imported.IsMarker marker)
    (hname : imported.nameOf? marker = some name) (hholder : imported.Holder marker holder)
    (hlater : imported.IsMarker later) (hlt : marker.index < later.index)
    (hserves : imported.Holder later holder) : graph.idOf? name = none := by
  have hunique : ∀ id, imported.nameOf? id = some name → id = marker := fun id hid => by
    have hfirst := (himported.coherent.registered.named name id).mpr hid
    have hsecond := (himported.coherent.registered.named name marker).mpr hname
    exact Option.some.inj (hfirst.symm.trans hsecond)
  by_contra hsome
  obtain ⟨id, hid⟩ := Option.ne_none_iff_exists'.mp hsome
  rw [h.coherent.registered.named] at hid
  have hstays : imported.Stays bound id := by
    refine h.stays_of_isSome ?_
    obtain ⟨node, hn, _⟩ := Option.map_eq_some_iff.mp hid
    rw [hn]
    rfl
  by_cases hserved : ∃ other, imported.Done bound other ∧ imported.Holder other id
  · obtain ⟨other, hother, hholds⟩ := hserved
    obtain ⟨last, hlast, hlastHolds, hmax⟩ := exists_last hother hholds
    rw [h.last id last hlast hlastHolds hmax] at hid
    have heq := hunique last hid
    subst heq
    have hsame := hholder.unique hlastHolds
    have hle := hmax later ⟨hlater, hbound later hlater⟩ (hsame ▸ hserves)
    omega
  · push Not at hserved
    rw [h.own id hstays hserved] at hid
    have heq := hunique id hid
    subst heq
    have hdone : imported.Done bound id := ⟨hmarker, hbound id hmarker⟩
    exact hserved id hdone (hstays hdone)

end Transferred

end Graph

/-- After a successful run over an imported graph every marker has a holder, which feeds all
ports that the marker fed and that are still there. If no later marker has the same holder, the
name of the marker leads to the holder and all ports that the marker fed are still there;
otherwise the name leads nowhere. -/
theorem marker_name_kept_iff_last {model : SourceModel} {registry : ExtractorRegistry}
    {imported final : Graph} {verify : Bool} {stats : PassStats} {marker : NodeId} {node : Node}
    (hregistry : SourceModel.LeavesMarkers registry)
    (himport : model.toGraph registry = .ok imported)
    (hrun : (Pass.outputMarkers.run verify).run imported = .ok stats final)
    (hn : imported.node? marker = some node) (htype : node.opType = "FakeOutput") :
    ∃ holder, imported.Holder marker holder ∧
      (∀ consumer index port, imported.inputSource? consumer index = some port →
        port.node = marker → (final.node? consumer).isSome = true →
          ∃ now, final.inputSource? consumer index = some now ∧ now.node = holder) ∧
      ((∀ later, imported.IsMarker later → marker.index < later.index →
          ¬ imported.Holder later holder) →
        final.idOf? node.name = some holder ∧
          ∀ consumer index port, imported.inputSource? consumer index = some port →
            port.node = marker → (final.node? consumer).isSome = true) ∧
      ∀ later, imported.IsMarker later → marker.index < later.index →
        imported.Holder later holder → final.idOf? node.name = none := by
  obtain ⟨extracted, names, _, hlaid⟩ := SourceModel.laid_of_toGraph himport hregistry
  have hmarked := hlaid.marked_graph
  have hmarker : imported.IsMarker marker := ⟨node, hn, htype⟩
  have hname : imported.nameOf? marker = some node.name := by rw [Graph.nameOf?, hn]; rfl
  obtain ⟨bound, hbound, h⟩ := hmarked.transferred_of_run hrun
  obtain ⟨holder, hholder⟩ := hmarked.exists_holder hmarker
  refine ⟨holder, hholder, fun consumer index port hport hthrough hthere => ?_, fun hlast => ⟨?_, ?_⟩,
    fun later hlater hlt hserves => ?_⟩
  · obtain ⟨now, hnow, hholds⟩ := h.handed consumer index port (h.stays_of_isSome hthere) hport
      (hthrough ▸ ⟨hmarker, hbound marker hmarker⟩)
    rw [hthrough] at hholds
    exact ⟨now, hnow, hholds.unique hholder⟩
  · exact h.idOf?_last hbound hmarker hname hholder hlast
  · intro consumer index port hport hthrough
    exact h.isSome_of_reads hmarked hholder hmarker hlast hport hthrough
  · exact h.idOf?_overwritten hmarked hbound hmarker hname hholder hlater hlt hserves

/-- A run over the graph of a tensor that is requested twice. -/
theorem exists_run_requestedTwice :
    ∃ imported stats final first second,
      SourceModel.requestedTwice.toGraph .standard = .ok imported ∧
        (Pass.outputMarkers.run true).run imported = .ok stats final ∧
          imported.node? ⟨2⟩ = some first ∧ first.opType = "FakeOutput" ∧ first.name = "a" ∧
            imported.node? ⟨4⟩ = some second ∧ second.opType = "FakeOutput" ∧
              second.name = "b" ∧ final.idOf? "a" = none ∧ final.idOf? "b" = some ⟨1⟩ := by
  have hok : (match SourceModel.requestedTwice.toGraph .standard with
      | .ok imported => match (Pass.outputMarkers.run true).run imported with
        | .ok _ final =>
          decide (((imported.node? ⟨2⟩).map fun node => (node.opType, node.name)) =
              some ("FakeOutput", "a") ∧
            ((imported.node? ⟨4⟩).map fun node => (node.opType, node.name)) =
              some ("FakeOutput", "b") ∧
            final.idOf? "a" = none ∧ final.idOf? "b" = some ⟨1⟩)
        | .error _ _ => false
      | .error _ => false) = true := by decide +kernel
  cases himport : SourceModel.requestedTwice.toGraph .standard with
  | error error =>
    rw [himport] at hok
    cases hok
  | ok imported =>
    rw [himport] at hok
    cases hrun : (Pass.outputMarkers.run true).run imported with
    | error error left =>
      simp only [hrun] at hok
      cases hok
    | ok stats final =>
      simp only [hrun] at hok
      obtain ⟨hfirst, hsecond, ha, hb⟩ := of_decide_eq_true hok
      obtain ⟨first, hfirst, hfirstEq⟩ := Option.map_eq_some_iff.mp hfirst
      obtain ⟨second, hsecond, hsecondEq⟩ := Option.map_eq_some_iff.mp hsecond
      simp only [Prod.mk.injEq] at hfirstEq hsecondEq
      exact ⟨imported, stats, final, first, second, rfl, hrun, hfirst, hfirstEq.1, hfirstEq.2,
        hsecond, hsecondEq.1, hsecondEq.2, ha, hb⟩

/-- The second of two requests for the same tensor keeps its name. -/
theorem marker_name_kept_requestedTwice :
    ∃ imported stats final holder, SourceModel.requestedTwice.toGraph .standard = .ok imported ∧
      (Pass.outputMarkers.run true).run imported = .ok stats final ∧
        imported.Holder ⟨4⟩ holder ∧ final.idOf? "b" = some holder := by
  obtain ⟨imported, stats, final, first, second, himport, hrun, _, _, _, hsecond, htype, hname, _,
    hb⟩ := exists_run_requestedTwice
  obtain ⟨holder, hholder, _, hlast, hoverwritten⟩ := marker_name_kept_iff_last
    ExtractorRegistry.leavesMarkers_standard himport hrun hsecond htype
  refine ⟨imported, stats, final, holder, himport, hrun, hholder, ?_⟩
  rw [← hname]
  refine (hlast fun later hlater hlt hserves => ?_).1
  have hnone := hoverwritten later hlater hlt hserves
  rw [hname, hb] at hnone
  cases hnone

/-- The first of two requests for the same tensor loses its name: nothing carries it any more. -/
theorem marker_name_lost_requestedTwice :
    ∃ imported stats final marker node,
      SourceModel.requestedTwice.toGraph .standard = .ok imported ∧
        (Pass.outputMarkers.run true).run imported = .ok stats final ∧
          imported.node? marker = some node ∧ node.opType = "FakeOutput" ∧
            final.idOf? node.name = none := by
  obtain ⟨imported, stats, final, first, _, himport, hrun, hfirst, htype, hname, _, _, _, ha, _⟩ :=
    exists_run_requestedTwice
  exact ⟨imported, stats, final, ⟨2⟩, first, himport, hrun, hfirst, htype, by rw [hname]; exact ha⟩

end OpGraph
