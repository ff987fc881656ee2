import OpGraph.Proofs.Graph.Extended

/-!
# What a rewrite spares

A rewrite changes a few nodes, which can be listed, and adds nodes and connections. It spares all
other nodes, slots and lists included, and all connections. Two rewrites, one after the other, spare
what both of them spare, so a rewrite of one node can be read off the graph before and after many
rewrites of others.
-/

namespace OpGraph

/-- The input ports of a node consist of those of its bare node and of its slots. -/
theorem Node.inputs_eq_of_bare {node other : Node} (hbare : node.bare.inputs = other.bare.inputs)
    (hfeed : ∀ index, node.feed? index = other.feed? index) : node.inputs = other.inputs := by
  refine List.ext_getElem? fun index => ?_
  have hport := congrArg (·[index]?) hbare
  have hslot := hfeed index
  simp only [bare, List.getElem?_map] at hport
  unfold feed? at hslot
  rcases hold : node.inputs[index]? with _ | ⟨position, slot⟩ <;>
    rcases hnew : other.inputs[index]? with _ | ⟨position', slot'⟩ <;> simp_all

/-- The output ports of a node consist of those of its bare node and of its lists. -/
theorem Node.outputs_eq_of_bare {node other : Node} (hbare : node.bare.outputs = other.bare.outputs)
    (hlisted : ∀ index, node.listed index = other.listed index) : node.outputs = other.outputs := by
  refine List.ext_getElem? fun index => ?_
  have hport := congrArg (·[index]?) hbare
  have hlist := hlisted index
  simp only [bare, List.getElem?_map] at hport
  unfold listed at hlist
  rcases hold : node.outputs[index]? with _ | ⟨position, feeds, info⟩ <;>
    rcases hnew : other.outputs[index]? with _ | ⟨position', feeds', info'⟩ <;> simp_all

/-- A node consists of its bare node, its slots and its lists. -/
theorem Node.eq_of_bare {node other : Node} (hbare : node.bare = other.bare)
    (hfeed : ∀ index, node.feed? index = other.feed? index)
    (hlisted : ∀ index, node.listed index = other.listed index) : node = other := by
  have hinputs := inputs_eq_of_bare (congrArg (·.inputs) hbare) hfeed
  have houtputs := outputs_eq_of_bare (congrArg (·.outputs) hbare) hlisted
  have hname := congrArg (·.name) hbare
  have htype := congrArg (·.opType) hbare
  have hattributes := congrArg (·.attributes) hbare
  cases node
  cases other
  simp only [bare] at hname htype hattributes hinputs houtputs
  rw [hname, htype, hattributes, hinputs, houtputs]

namespace Graph

variable {graph middle later : Graph} {ids ids' : List NodeId} {id : NodeId} {node : Node}

/-- A change of a node that keeps its lists leaves every port feed what it fed. -/
theorem outputDestinations_modifyNode {f : Node → Node} (hf : Node.Neutral f) (other : NodeId)
    (index : Nat) :
    (graph.modifyNode id f).outputDestinations other index = graph.outputDestinations other index := by
  rw [outputDestinations_eq, outputDestinations_eq, graph.listed_modifyNode hf.listed]
  rfl

/-- The graph has become the later one by changes of the listed nodes and by additions. -/
structure Spares (graph : Graph) (ids : List NodeId) (later : Graph) : Prop where
  /-- The records agree. -/
  coherent : later.Coherent
  /-- Nodes that are not listed are what they were. -/
  node : ∀ other node, graph.node? other = some node → other ∉ ids → later.node? other = some node
  /-- The listed nodes are still there. -/
  stays : ∀ other, (graph.node? other).isSome = true → (later.node? other).isSome = true
  /-- Connections are what they were. -/
  connection : ∀ connection ends, graph.connection? connection = some ends →
    later.connection? connection = some ends

namespace Spares

theorem refl (h : graph.Coherent) : graph.Spares [] graph :=
  ⟨h, fun _ _ hn _ => hn, fun _ hn => hn, fun _ _ hends => hends⟩

theorem trans (h : graph.Spares ids middle) (h' : middle.Spares ids' later) :
    graph.Spares (ids ++ ids') later where
  coherent := h'.coherent
  node other node hn hother := by
    rw [List.mem_append, not_or] at hother
    exact h'.node other node (h.node other node hn hother.1) hother.2
  stays other hn := h'.stays other (h.stays other hn)
  connection connection ends hends := h'.connection connection ends (h.connection connection ends hends)

/-- More nodes may be listed. -/
theorem mono (h : graph.Spares ids later) (hids : ∀ other ∈ ids, other ∈ ids') :
    graph.Spares ids' later :=
  ⟨h.coherent, fun other node hn hother => h.node other node hn fun hmem => hother (hids other hmem),
    h.stays, h.connection⟩

/-- A change of one node without any change of its connections spares the others. -/
theorem modifyNode (h : graph.Coherent) {f : Node → Node} (hf : Node.Neutral f) (id : NodeId) :
    graph.Spares [id] (graph.modifyNode id f) where
  coherent := h.change (.modifyNode id hf)
  node other node hn hother := by
    rw [node?_modifyNode, if_neg (by simpa using hother), hn]
  stays other hn := by
    rw [node?_modifyNode]
    split
    · rwa [Option.isSome_map]
    · exact hn
  connection _ _ hends := hends

/-- An extension whose connections lead from listed nodes to new ones spares the others. -/
theorem of_extended (hgraph : graph.Linked) {added : List (NodeId × Node)}
    {links : List (ConnectionId × Connection)} (h : graph.Extended added links later)
    (hstart : ∀ link ∈ links, link.2.source.node ∈ ids)
    (hend : ∀ link ∈ links, graph.node? link.2.destination.node = none) : graph.Spares ids later where
  coherent := h.coherent
  node other node hn hother := by
    have hbare : later.bare? other = graph.bare? other := h.bare?_of_isSome (by rw [hn]; rfl)
    rw [bare?_of_node? hn] at hbare
    obtain ⟨now, hnow, hsame⟩ := Option.map_eq_some_iff.mp hbare
    rw [hnow, Option.some.injEq]
    refine Node.eq_of_bare hsame (fun index => ?_) fun index => ?_
    · rw [← later.inputConnection?_of_node? hnow, ← graph.inputConnection?_of_node? hn]
      refine h.inputConnection?_of_notMem hgraph fun link hlink hown => ?_
      have hnew := hend link hlink
      rw [hown] at hnew
      exact absurd (hn.symm.trans hnew) (Option.some_ne_none _)
    · have hnone : (links.filter fun link => link.2.source = .output other index) = [] := by
        refine List.filter_eq_nil_iff.mpr fun link hlink hown => hother ?_
        have hlisted := hstart link hlink
        rwa [of_decide_eq_true hown] at hlisted
      rw [← later.listed_of_node? hnow, ← graph.listed_of_node? hn, h.listed, hnone, List.map_nil,
        List.append_nil]
  stays other hn := by
    rw [← isSome_bare?, h.bare?_of_isSome hn, isSome_bare?, hn]
  connection _ _ hends := h.connection?_iff.mpr (.inl hends)

variable (h : graph.Spares ids later)
include h

/-- A node that is not there later was not there before. -/
theorem node?_eq_none (hnone : later.node? id = none) : graph.node? id = none := by
  by_contra hfound
  have hstays := h.stays id (Option.isSome_iff_ne_none.mpr hfound)
  rw [hnone] at hstays
  cases hstays

/-- A node that is not listed feeds what it fed. -/
theorem outputDestinations (hgraph : graph.Linked) (hn : graph.node? id = some node) (hid : id ∉ ids)
    (index : Nat) : later.outputDestinations id index = graph.outputDestinations id index := by
  rw [outputDestinations_eq, outputDestinations_eq, later.listed_of_node? (h.node id node hn hid),
    ← graph.listed_of_node? hn]
  refine List.filterMap_congr fun feed hfeed => ?_
  obtain ⟨ends, hends, _⟩ := Option.map_eq_some_iff.mp ((hgraph.listed_iff id index feed).mp hfeed)
  rw [destination?, destination?, hends, h.connection feed ends hends]

/-- The slots of a node that is not listed hold the connections that they held. -/
theorem inputConnection? (hn : graph.node? id = some node) (hid : id ∉ ids) (index : Nat) :
    later.inputConnection? id index = graph.inputConnection? id index := by
  rw [later.inputConnection?_of_node? (h.node id node hn hid), graph.inputConnection?_of_node? hn]

end Spares

end Graph

end OpGraph
