import OpGraph.Proofs.Graph.Spared
import OpGraph.Proofs.Pass.Failure
import OpGraph.Proofs.Pass.PoolingNode
import OpGraph.Proofs.TerminatedPorts

/-!
# Output ports of canonical poolings

A pass for poolings visits its matches one after another. A visit changes the pooling, ends its open
output ports and spares everything else, so what it achieves is still there after the visits that
follow. In the end each matched pooling has a consumer at every output port, and no other node and no
connection has changed.

How many output ports there are is another matter: a maximum pooling gets one port if it has less
than two, and so it has two afterwards unless it had none.
-/

namespace OpGraph

open Edit

/-- The node of a match that holds is accepted as before if it is what it was. -/
theorem Pattern.stillMatches_congr {pattern : Pattern} {node : NodePattern} (h : pattern.IsSingle node)
    {graph later : Graph} {label : String} {id : NodeId} (hn : later.node? id = graph.node? id) :
    pattern.stillMatches later ⟨[(label, id)]⟩ = pattern.stillMatches graph ⟨[(label, id)]⟩ := by
  rw [Bool.eq_iff_iff, Pattern.stillMatches_of_isSingle h, Pattern.stillMatches_of_isSingle h]
  constructor
  · rintro ⟨_, _, bound, hsame, hbound, haccepts⟩
    cases hsame
    exact ⟨label, id, bound, rfl, hn ▸ hbound, haccepts⟩
  · rintro ⟨_, _, bound, hsame, hbound, haccepts⟩
    cases hsame
    exact ⟨label, id, bound, rfl, hn.trans hbound, haccepts⟩

namespace Graph

variable {graph middle later : Graph} {id : NodeId} {ids : List NodeId} {made owner : Node}
  {ports : List Nat} {terminals : List Terminal}

/-- A node was changed and its open output ports have come to an end. -/
structure Capped (graph : Graph) (id : NodeId) (made : Node) (later : Graph) : Prop where
  /-- Connections apart, the node is what was made of it. -/
  own : later.bare? id = some made.bare
  /-- Its slots hold the connections that they held. -/
  slots : ∀ index, later.inputConnection? id index = graph.inputConnection? id index
  /-- An output port that fed something feeds it still, in the same order. -/
  kept : ∀ index, graph.outputDestinations id index ≠ [] →
    later.outputDestinations id index = graph.outputDestinations id index
  /-- Each other output port feeds a new terminal that is made for it, and nothing else. -/
  ended : ∀ index < made.outputs.length, graph.outputDestinations id index = [] →
    ∃ terminal result, graph.node? terminal = none ∧ later.node? terminal = some result ∧
      result.MadeFrom (terminalDesc made index) ∧
        later.outputDestinations id index = [.input terminal 0]

/-- Terminals of one node spare the others. -/
theorem Attached.spares (h : graph.Attached id owner ports terminals later) (hgraph : graph.Linked) :
    graph.Spares [id] later := by
  refine .of_extended hgraph h.extended (fun link hlink => ?_) fun link hlink => ?_
  · obtain ⟨terminal, _, rfl⟩ := List.mem_map.mp hlink
    exact List.mem_singleton_self id
  · obtain ⟨terminal, hterminal, rfl⟩ := List.mem_map.mp hlink
    exact h.extended.node?_eq_none_of_mem (List.mem_map_of_mem (f := Terminal.entry) hterminal)

namespace Capped

/-- A node whose open output ports got terminals has come to an end there. -/
theorem of_attached (hgraph : graph.Coherent) (hn : graph.node? id = some owner)
    (h : graph.Attached id owner owner.disconnectedOutputs terminals later) :
    graph.Capped id owner later where
  own := (h.extended.bare?_of_isSome (by rw [hn]; rfl)).trans (bare?_of_node? hn)
  slots := h.inputConnection? hgraph.linked (by rw [hn]; rfl)
  kept index hfed := by
    refine h.outputDestinations_of_notMem hgraph.linked fun _ hopen => hfed ?_
    obtain ⟨port, hport, _⟩ :=
      (hgraph.registered.indexed id owner hn).mem_disconnectedOutputs_iff.mp hopen
    have hcontains := hgraph.contains_disconnectedOutputs hn (List.getElem?_eq_some_iff.mp hport).1
    rw [List.contains_iff_mem.mpr hopen] at hcontains
    exact List.isEmpty_iff.mp hcontains.symm
  ended index hindex hopen := by
    have hcontains := hgraph.contains_disconnectedOutputs hn hindex
    rw [hopen, List.isEmpty_nil, List.contains_iff_mem] at hcontains
    have honce : (terminals.filter (·.port = index)).length = 1 := by
      rw [h.length_filter]
      exact List.count_eq_one_of_mem
        (hgraph.registered.indexed id owner hn).nodup_disconnectedOutputs hcontains
    obtain ⟨terminal, hterminal⟩ := List.length_eq_one_iff.mp honce
    obtain ⟨hmem, hport⟩ := List.mem_filter.mp (hterminal ▸ List.mem_singleton_self terminal)
    have hentry : terminal.entry ∈ terminals.map (·.entry) := List.mem_map_of_mem hmem
    obtain ⟨result, hresult, hbare⟩ :=
      Option.map_eq_some_iff.mp (h.extended.bare?_iff.mpr (.inr hentry))
    refine ⟨terminal.id, result, h.extended.node?_eq_none_of_mem hentry, hresult, ?_, ?_⟩
    · rw [← Node.madeFrom_bare, hbare, ← of_decide_eq_true hport]
      exact (h.ends terminal hmem).made
    · rw [h.outputDestinations hgraph.linked, hopen, hterminal]
      rfl

/-- The node has the output ports that were made. -/
theorem length_outputs (h : graph.Capped id made later) {now : Node}
    (hnow : later.node? id = some now) : now.outputs.length = made.outputs.length := by
  have hbare := (bare?_of_node? hnow).symm.trans h.own
  rw [Option.some.injEq] at hbare
  simpa [Node.bare] using congrArg (·.outputs.length) hbare

/-- The node keeps its slots if it was made with its input ports. -/
theorem inputs (h : graph.Capped id made later) {node now : Node} (hn : graph.node? id = some node)
    (hmade : made.inputs = node.inputs) (hnow : later.node? id = some now) :
    now.inputs = node.inputs := by
  have hbare := (bare?_of_node? hnow).symm.trans h.own
  rw [Option.some.injEq] at hbare
  refine Node.inputs_eq_of_bare ((congrArg (·.inputs) hbare).trans ?_) fun index => ?_
  · simp [Node.bare, hmade]
  · rw [← later.inputConnection?_of_node? hnow, h.slots, graph.inputConnection?_of_node? hn]

/-- Every output port of the node has a consumer. -/
theorem disconnectedOutputs (h : graph.Capped id made later) (hlater : later.Coherent) {now : Node}
    (hnow : later.node? id = some now) : now.disconnectedOutputs = [] := by
  refine (hlater.disconnectedOutputs_eq_nil_iff hnow).mpr fun index hindex => ?_
  by_cases hopen : graph.outputDestinations id index = []
  · obtain ⟨terminal, _, _, _, _, hfeeds⟩ := h.ended index (h.length_outputs hnow ▸ hindex) hopen
    rw [hfeeds]
    exact List.cons_ne_nil _ _
  · rwa [h.kept index hopen]

/-- What was ended after a change elsewhere was open before it. -/
theorem of_same_start (h : middle.Capped id made later)
    (hslots : ∀ index, middle.inputConnection? id index = graph.inputConnection? id index)
    (hlists : ∀ index, middle.outputDestinations id index = graph.outputDestinations id index)
    (hnew : ∀ other, middle.node? other = none → graph.node? other = none) :
    graph.Capped id made later where
  own := h.own
  slots index := (h.slots index).trans (hslots index)
  kept index hfed := by
    rw [← hlists] at hfed ⊢
    exact h.kept index hfed
  ended index hindex hopen := by
    rw [← hlists] at hopen
    obtain ⟨terminal, result, hterminal, hrest⟩ := h.ended index hindex hopen
    exact ⟨terminal, result, hnew terminal hterminal, hrest⟩

/-- What has come to an end stays so while other nodes change that were there before. -/
theorem spares (h : graph.Capped id made middle) (hlater : middle.Spares ids later)
    (hmiddle : middle.Linked) (hid : id ∉ ids) (hold : ∀ other ∈ ids, (graph.node? other).isSome = true) :
    graph.Capped id made later := by
  obtain ⟨now, hnow, hbare⟩ := Option.map_eq_some_iff.mp h.own
  refine ⟨?_, fun index => ?_, fun index hfed => ?_, fun index hindex hopen => ?_⟩
  · rw [bare?_of_node? (hlater.node id now hnow hid), hbare]
  · rw [hlater.inputConnection? hnow hid, h.slots]
  · rw [hlater.outputDestinations hmiddle hnow hid, h.kept index hfed]
  · obtain ⟨terminal, result, hnew, hresult, hmade, hfeeds⟩ := h.ended index hindex hopen
    refine ⟨terminal, result, hnew, hlater.node terminal result hresult fun hmem => ?_, hmade, ?_⟩
    · have hwas := hold terminal hmem
      rw [hnew] at hwas
      cases hwas
    · rw [hlater.outputDestinations hmiddle hnow hid, hfeeds]

end Capped

end Graph

/-! ### Passes -/

variable {graph later : Graph} {id : NodeId} {ids : List NodeId} {node : Node} {make : Node → Node}
  {pass : Pass} {verify : Bool} {stats next : PassStats}

/-- The pass makes one thing of each node that it matches and ends the open output ports. -/
structure Pass.Recasts (pass : Pass) (make : Node → Node) : Prop where
  /-- The pass matches generic poolings of one method. -/
  pattern : ∃ method, pass.pattern = poolingPattern method
  /-- No connection is touched. -/
  neutral : Node.Neutral make
  /-- Input ports stay. -/
  inputs : ∀ node, (make node).inputs = node.inputs
  /-- Output ports stay, with what is known about them, and further ones may follow. -/
  outputs : ∀ node, node.outputs <+: (make node).outputs
  /-- Whether outputs have to stay when they are written is demanded as before. -/
  demand : ∀ node, (make node).attributes.isSet "remove_values_output" =
    node.attributes.isSet "remove_values_output"
  /-- A visit of a node changes it and terminates its open output ports. -/
  apply : ∀ {graph result : Graph} {id : NodeId},
    (pass.apply ⟨[("pool", id)]⟩).run graph = .ok () result →
      ∃ terminals, (terminate id).run (graph.modifyNode id make) = .ok terminals result

theorem Node.isSet_ofMethod {opType name : String} {names : List String} (hname : name ∉ names)
    (node : Node) : (node.ofMethod opType names).attributes.isSet name = node.attributes.isSet name := by
  unfold Attributes.isSet
  rw [ofMethod, Attributes.get?_eraseAll_of_notMem hname]

theorem recasts_maxPool : Pass.maxPool.Recasts Node.toMaxPool where
  pattern := ⟨"max", rfl⟩
  neutral := .toMaxPool
  inputs node := by
    unfold Node.toMaxPool
    split <;> rfl
  outputs node := by
    unfold Node.toMaxPool
    split
    · exact List.prefix_append _ _
    · exact List.prefix_rfl
  demand node := by
    rw [Node.toMaxPool, Node.isSet_ofMethod (by decide)]
    split <;> rfl
  apply := run_terminate_of_run_canonizeMaxPool

theorem recasts_avgPool : Pass.avgPool.Recasts Node.toAvgPool where
  pattern := ⟨"avg", rfl⟩
  neutral := .toAvgPool
  inputs _ := rfl
  outputs _ := List.prefix_rfl
  demand node := node.isSet_ofMethod (by decide)
  apply := run_terminate_of_run_canonizeAvgPool

namespace Pass.Recasts

variable (h : pass.Recasts make)
include h

theorem exists_isSingle : ∃ pattern, pass.pattern.IsSingle pattern ∧ pattern.label = "pool" := by
  obtain ⟨method, hpattern⟩ := h.pattern
  rw [hpattern]
  exact ⟨_, Pattern.isSingle_constrain (Pattern.isSingle_single "pool" "Pooling") _, rfl⟩

/-- A visit changes its node and then attaches terminals to the open output ports. -/
theorem attached_of_visit (hgraph : graph.Coherent) (hn : graph.node? id = some node)
    (hrun : (pass.apply ⟨[("pool", id)]⟩).run graph = .ok () later) :
    (graph.modifyNode id make).Coherent ∧ (graph.modifyNode id make).node? id = some (make node) ∧
      ∃ terminals, (graph.modifyNode id make).Attached id (make node) (make node).disconnectedOutputs
        terminals later := by
  have hchanged : (graph.modifyNode id make).Coherent := hgraph.change (.modifyNode id h.neutral)
  have hnow : (graph.modifyNode id make).node? id = some (make node) := by
    rw [graph.node?_modifyNode, if_pos rfl, hn]
    rfl
  obtain ⟨_, hterminate⟩ := h.apply hrun
  exact ⟨hchanged, hnow, hchanged.attached_of_run_terminate hnow hterminate⟩

/-- A visit ends the open output ports of its node and spares the other nodes. -/
theorem capped_of_visit (hgraph : graph.Coherent) (hn : graph.node? id = some node)
    (hrun : (pass.apply ⟨[("pool", id)]⟩).run graph = .ok () later) :
    graph.Spares [id] later ∧ graph.Capped id (make node) later := by
  have hchanged := Graph.Spares.modifyNode hgraph h.neutral id
  obtain ⟨hcoherent, hnow, terminals, hattached⟩ := h.attached_of_visit hgraph hn hrun
  have hadded := hattached.spares hcoherent.linked
  have hcapped := Graph.Capped.of_attached hcoherent hnow hattached
  exact ⟨(hchanged.trans hadded).mono (by simp), hcapped.of_same_start
    (graph.inputConnection?_modifyNode h.neutral.feed id id)
    (Graph.outputDestinations_modifyNode h.neutral id) fun _ => hchanged.node?_eq_none⟩

/-- Visits of different nodes end the open output ports of each of them and spare the others. -/
theorem capped_of_visits (hgraph : graph.Coherent) (hnodup : ids.Nodup)
    (hmatches : ∀ id ∈ ids, pass.pattern.stillMatches graph ⟨[("pool", id)]⟩ = true)
    (hrun : ((ids.map fun id => (⟨[("pool", id)]⟩ : Match)).foldlM (pass.applyTo verify) stats).run
      graph = .ok next later) :
    graph.Spares ids later ∧
      ∀ id ∈ ids, ∀ node, graph.node? id = some node → graph.Capped id (make node) later := by
  obtain ⟨pattern, hsingle, _⟩ := h.exists_isSingle
  induction ids generalizing graph stats with
  | nil =>
    cases hrun
    exact ⟨.refl hgraph, fun _ hmem => absurd hmem List.not_mem_nil⟩
  | cons first rest ih =>
    obtain ⟨hfirst, hrest⟩ := List.nodup_cons.mp hnodup
    have hholds := hmatches first List.mem_cons_self
    have hexists : ∀ id ∈ first :: rest, ∃ node, graph.node? id = some node := fun id hmem => by
      obtain ⟨_, _, node, hsame, hn, _⟩ :=
        (Pattern.stillMatches_of_isSingle hsingle).mp (hmatches id hmem)
      cases hsame
      exact ⟨node, hn⟩
    rw [List.map_cons, List.foldlM_cons] at hrun
    obtain ⟨_, middle, hturn, hrun⟩ := run_bind_eq_ok.mp hrun
    rcases run_applyTo_eq_ok hturn with ⟨hstale, _⟩ | ⟨_, happly⟩
    · rw [hholds] at hstale
      cases hstale
    obtain ⟨node, hn⟩ := hexists first List.mem_cons_self
    obtain ⟨hspares, hcapped⟩ := h.capped_of_visit hgraph hn happly
    -- The nodes of later visits are what they were, so their matches hold still.
    have hsame : ∀ id ∈ rest, middle.node? id = graph.node? id := fun id hmem => by
      obtain ⟨own, hown⟩ := hexists id (List.mem_cons_of_mem first hmem)
      rw [hown]
      exact hspares.node id own hown fun hid => hfirst (List.mem_singleton.mp hid ▸ hmem)
    obtain ⟨hlater, hall⟩ := ih hspares.coherent hrest (fun id hmem => by
      rw [Pattern.stillMatches_congr hsingle (hsame id hmem)]
      exact hmatches id (List.mem_cons_of_mem first hmem)) hrun
    refine ⟨hspares.trans hlater, fun id hmem own hown => ?_⟩
    rcases List.mem_cons.mp hmem with rfl | hmem
    · cases hn.symm.trans hown
      refine hcapped.spares hlater hspares.coherent.linked hfirst fun other hother => ?_
      obtain ⟨before, hbefore⟩ := hexists other (List.mem_cons_of_mem id hother)
      rw [hbefore]
      rfl
    · have hother : id ∉ [first] := fun hid => hfirst (List.mem_singleton.mp hid ▸ hmem)
      exact (hall id hmem own ((hsame id hmem).trans hown)).of_same_start
        (hspares.inputConnection? hown hother)
        (hspares.outputDestinations hgraph.linked hown hother) fun _ => hspares.node?_eq_none

/-- A run ends the open output ports of the nodes that it matched and spares the others. -/
theorem capped_of_run (hgraph : graph.Coherent)
    (hrun : (pass.run verify).run graph = .ok stats later) :
    ∃ ids, (∀ id, id ∈ ids ↔ ⟨[("pool", id)]⟩ ∈ pass.pattern.findAll graph) ∧
      graph.Spares ids later ∧
        ∀ id ∈ ids, ∀ node, graph.node? id = some node → graph.Capped id (make node) later := by
  obtain ⟨pattern, hsingle, hlabel⟩ := h.exists_isSingle
  have hfound : pass.pattern.findAll graph =
      (Pattern.candidates graph pattern).map fun id => ⟨[("pool", id)]⟩ := by
    rw [Pattern.findAll_of_isSingle hsingle, hlabel]
  have hnodup : (Pattern.candidates graph pattern).Nodup :=
    graph.nodes.nodup_keys.sublist (List.filter_sublist.map Prod.fst)
  have hmem : ∀ id, id ∈ Pattern.candidates graph pattern ↔
      ⟨[("pool", id)]⟩ ∈ pass.pattern.findAll graph := by
    simp [hfound]
  have hmatches : ∀ id ∈ Pattern.candidates graph pattern,
      pass.pattern.stillMatches graph ⟨[("pool", id)]⟩ = true := fun id hid => by
    obtain ⟨own, bound, hsame, hbound, haccepts⟩ :=
      (Pattern.mem_findAll_of_isSingle hsingle).mp ((hmem id).mp hid)
    exact (Pattern.stillMatches_of_isSingle hsingle).mpr ⟨_, own, bound, hsame, hbound, haccepts⟩
  obtain ⟨_, _, hget, hturns⟩ := run_bind_eq_ok.mp hrun
  cases hget
  rw [hfound] at hturns
  exact ⟨_, hmem, h.capped_of_visits hgraph hnodup hmatches hturns⟩

end Pass.Recasts

/-- The passes for poolings succeed on every graph whose records agree. -/
theorem Graph.Coherent.exists_run_pooling (hgraph : graph.Coherent)
    (hpass : pass = .maxPool ∨ pass = .avgPool) (verify : Bool) :
    ∃ stats later, (pass.run verify).run graph = .ok stats later := by
  cases hrun : (pass.run verify).run graph with
  | ok stats later => exact ⟨stats, later, rfl⟩
  | error error later =>
    exact (failsOnly_run_pooling (E := fun _ => False) verify hpass graph error later
      ⟨hgraph, .refl graph⟩ hrun).elim

/-- What is known about an output port of a pooling is known about it afterwards. -/
theorem Pass.Recasts.outputInfo? (hpass : pass.Recasts make) (hcapped : graph.Capped id (make node) later)
    (hn : graph.node? id = some node) {index : Nat} {info : TensorInfo}
    (hinfo : graph.outputInfo? (.output id index) = some info) :
    later.outputInfo? (.output id index) = some info := by
  rw [Graph.outputInfo?_output (Graph.bare?_of_node? hn)] at hinfo
  obtain ⟨port, hport, hknown⟩ := Option.bind_eq_some_iff.mp hinfo
  obtain ⟨further, houtputs⟩ := hpass.outputs node
  have hindex : index < node.bare.outputs.length := (List.getElem?_eq_some_iff.mp hport).1
  have hbare : (make node).bare.outputs = node.bare.outputs ++
      further.map fun port => ⟨port.index, [], port.info⟩ := by
    rw [Node.bare, ← houtputs, List.map_append]
    rfl
  rw [Graph.outputInfo?_output hcapped.own, hbare, List.getElem?_append_left hindex, hport,
    Option.bind_some, hknown]

/-- On every reachable graph the passes for poolings succeed, and afterwards each pooling that matched
at the start has a consumer at every output port. A port that fed something feeds the same ports in
the same order, and each other port, one that the pass added included, feeds one new graph output and
nothing else, which says whether the port has to stay as the pooling demands. The pooling keeps its
slots and what is known about its output ports, and terminating it again does nothing. All other nodes
and all connections are what they were. -/
theorem consumers_of_run_pooling (hreachable : graph.Reachable)
    (hpass : pass = .maxPool ∨ pass = .avgPool) (verify : Bool) :
    ∃ stats later, (pass.run verify).run graph = .ok stats later ∧
      (∀ id node, graph.node? id = some node → ⟨[("pool", id)]⟩ ∈ pass.pattern.findAll graph →
        ∃ now, later.node? id = some now ∧ node.outputs.length ≤ now.outputs.length ∧
          now.disconnectedOutputs = [] ∧
          (∀ index, graph.outputDestinations id index ≠ [] →
            later.outputDestinations id index = graph.outputDestinations id index) ∧
          (∀ index < now.outputs.length, graph.outputDestinations id index = [] →
            ∃ terminal result, later.outputDestinations id index = [.input terminal 0] ∧
              graph.node? terminal = none ∧ later.node? terminal = some result ∧
              result.opType = "Result" ∧ result.attributes.get? "keep_output_port" =
                some (.bool (node.attributes.isSet "remove_values_output"))) ∧
          now.inputs = node.inputs ∧
          (∀ index info, graph.outputInfo? (.output id index) = some info →
            later.outputInfo? (.output id index) = some info) ∧
          (terminate id).run later = .ok [] later) ∧
      (∀ other node, graph.node? other = some node →
        ⟨[("pool", other)]⟩ ∉ pass.pattern.findAll graph → later.node? other = some node) ∧
      ∀ connection ends, graph.connection? connection = some ends →
        later.connection? connection = some ends := by
  have h := hreachable.coherent
  obtain ⟨stats, later, hrun⟩ := h.exists_run_pooling hpass verify
  obtain ⟨make, hmake⟩ : ∃ make, pass.Recasts make := by
    rcases hpass with rfl | rfl
    · exact ⟨_, recasts_maxPool⟩
    · exact ⟨_, recasts_avgPool⟩
  obtain ⟨ids, hids, hspares, hcapped⟩ := hmake.capped_of_run h hrun
  refine ⟨stats, later, hrun, fun id node hn hfind => ?_, fun other node hn hfind =>
    hspares.node other node hn fun hmem => hfind ((hids other).mp hmem), hspares.connection⟩
  have hown := hcapped id ((hids id).mpr hfind) node hn
  obtain ⟨now, hnow, _⟩ := Option.map_eq_some_iff.mp hown.own
  have hclosed := hown.disconnectedOutputs hspares.coherent hnow
  have hcount : node.outputs.length ≤ now.outputs.length := by
    rw [hown.length_outputs hnow]
    exact (hmake.outputs node).length_le
  refine ⟨now, hnow, hcount, hclosed, hown.kept, fun index hindex hopen => ?_,
    hown.inputs hn (hmake.inputs node) hnow, fun _ _ => hmake.outputInfo? hown hn,
    Graph.run_terminate_of_closed hnow hclosed⟩
  obtain ⟨terminal, result, hnew, hresult, hmade, hfeeds⟩ :=
    hown.ended index (hown.length_outputs hnow ▸ hindex) hopen
  refine ⟨terminal, result, hfeeds, hnew, hresult, hmade.opType, ?_⟩
  rw [hmade.attributes, ← hmake.demand node]
  rfl

/-- A maximum pooling with two output ports, the first of which an activation reads, next to an average
pooling. -/
def mixedPools : Graph :=
  [Operation.addNode
      { opType := "Pooling"
        attributes := .ofList [("pool_method", .str "max"), ("remove_values_output", .bool true)]
        outputs := 2 },
    .addNode { opType := "Relu", inputs := 1 },
    .connect (.output ⟨0⟩ 0) (.input ⟨1⟩ 0),
    .addNode
      { opType := "Pooling", attributes := .ofList [("pool_method", .str "avg")], outputs := 1 }].foldl
    (fun graph operation => operation.perform.after graph) .empty

/-- The activation reads on, the second port gets a terminal that has to stay, and the other pooling
keeps its open port. -/
theorem consumers_of_run_pooling_mixedPools :
    ∃ stats later, (Pass.maxPool.run true).run mixedPools = .ok stats later ∧
      later.outputDestinations ⟨0⟩ 0 = [.input ⟨1⟩ 0] ∧
      (∃ terminal result, later.outputDestinations ⟨0⟩ 1 = [.input terminal 0] ∧
        later.node? terminal = some result ∧
          result.attributes.get? "keep_output_port" = some (.bool true)) ∧
      later.node? ⟨2⟩ = mixedPools.node? ⟨2⟩ := by
  have hreachable : mixedPools.Reachable := Graph.reachable_of_operations _
  obtain ⟨stats, later, hrun, hmatched, hothers, _⟩ :=
    consumers_of_run_pooling hreachable (.inl rfl) true
  obtain ⟨node, hn, hports, hdemand⟩ : ∃ node, mixedPools.node? ⟨0⟩ = some node ∧
      node.outputs.length = 2 ∧ node.attributes.isSet "remove_values_output" = true :=
    ⟨_, rfl, by decide +kernel, by decide +kernel⟩
  obtain ⟨other, hother⟩ : ∃ other, mixedPools.node? ⟨2⟩ = some other := ⟨_, rfl⟩
  obtain ⟨now, _, hcount, _, hkept, hended, _⟩ := hmatched ⟨0⟩ node hn (by decide +kernel)
  obtain ⟨terminal, result, hfeeds, _, hresult, _, hkeep⟩ :=
    hended 1 (by omega) (by decide +kernel)
  refine ⟨stats, later, hrun, (hkept 0 (by decide +kernel)).trans (by decide +kernel),
    ⟨terminal, result, hfeeds, hresult, hdemand ▸ hkeep⟩, ?_⟩
  rw [hother]
  exact hothers ⟨2⟩ other hother (by decide +kernel)

/-! ### The port for the positions -/

/-- A maximum pooling has one output port more if it had less than two. -/
theorem Node.length_outputs_toMaxPool (node : Node) : node.toMaxPool.outputs.length =
    if node.outputs.length < 2 then node.outputs.length + 1 else node.outputs.length := by
  unfold toMaxPool
  split
  · exact List.length_append
  · rfl

/-- Of the port for the positions is known what is known of the maxima. -/
theorem Node.info_toMaxPool {node : Node} {info : TensorInfo} (hports : node.outputs.length < 2)
    (hinfo : node.bare.outputs[0]?.bind (·.info) = some info) :
    node.toMaxPool.bare.outputs[1]?.bind (·.info) = some info := by
  obtain ⟨port, hport, hknown⟩ := Option.bind_eq_some_iff.mp hinfo
  rw [Node.bare, List.getElem?_map] at hport
  obtain ⟨own, hown, rfl⟩ := Option.map_eq_some_iff.mp hport
  change own.info = some info at hknown
  have hone : node.outputs.length = 1 := by
    have hpos := (List.getElem?_eq_some_iff.mp hown).1
    omega
  have houtputs : node.toMaxPool.outputs = node.outputs ++ [⟨1, [], some info⟩] := by
    rw [toMaxPool, if_pos hports, ofMethod, withIndices, hone, hown]
    rw [Option.bind_some, hknown]
  rw [Node.bare, houtputs]
  simp [hone]

/-- On every reachable graph the pass for maximum poolings succeeds. Each pooling that matched at the
start has one output port more afterwards if it had less than two, and as many as before otherwise, so
it has two or more exactly if it had any. If it had less than two and something was known about the
first one, the same is known about the second one. -/
theorem ports_of_run_maxPool (hreachable : graph.Reachable) (verify : Bool) :
    ∃ stats later, (Pass.maxPool.run verify).run graph = .ok stats later ∧
      ∀ id node, graph.node? id = some node →
        ⟨[("pool", id)]⟩ ∈ Pass.maxPool.pattern.findAll graph →
        ∃ now, later.node? id = some now ∧
          now.outputs.length =
            (if node.outputs.length < 2 then node.outputs.length + 1 else node.outputs.length) ∧
          (2 ≤ now.outputs.length ↔ node.outputs ≠ []) ∧
          ∀ info, node.outputs.length < 2 → graph.outputInfo? (.output id 0) = some info →
            later.outputInfo? (.output id 1) = some info := by
  have h := hreachable.coherent
  obtain ⟨stats, later, hrun⟩ := h.exists_run_pooling (.inl rfl) verify
  obtain ⟨ids, hids, _, hcapped⟩ := recasts_maxPool.capped_of_run h hrun
  refine ⟨stats, later, hrun, fun id node hn hfind => ?_⟩
  have hown := hcapped id ((hids id).mpr hfind) node hn
  obtain ⟨now, hnow, _⟩ := Option.map_eq_some_iff.mp hown.own
  have hcount := (hown.length_outputs hnow).trans node.length_outputs_toMaxPool
  refine ⟨now, hnow, hcount, ?_, fun info hports hinfo => ?_⟩
  · rw [hcount, ← List.length_pos_iff]
    split <;> omega
  · rw [Graph.outputInfo?_output (Graph.bare?_of_node? hn)] at hinfo
    rw [Graph.outputInfo?_output hown.own]
    exact Node.info_toMaxPool hports hinfo

/-- A generic maximum pooling with one output port, of which the shape is known. -/
def knownPool : Graph :=
  [Operation.addNode
      { opType := "Pooling", attributes := .ofList [("pool_method", .str "max")], outputs := 1 },
    .annotate (.output ⟨0⟩ 0) (.ofShape [1, 8])].foldl
    (fun graph operation => operation.perform.after graph) .empty

/-- It gets a second port of the same shape. -/
theorem ports_of_run_maxPool_knownPool :
    ∃ stats later now, (Pass.maxPool.run true).run knownPool = .ok stats later ∧
      later.node? ⟨0⟩ = some now ∧ now.outputs.length = 2 ∧
        later.outputInfo? (.output ⟨0⟩ 1) = some (.ofShape [1, 8]) := by
  have hreachable : knownPool.Reachable := Graph.reachable_of_operations _
  obtain ⟨node, hn, hports⟩ : ∃ node, knownPool.node? ⟨0⟩ = some node ∧ node.outputs.length = 1 :=
    ⟨_, rfl, by decide +kernel⟩
  obtain ⟨stats, later, hrun, hmatched⟩ := ports_of_run_maxPool hreachable true
  obtain ⟨now, hnow, hcount, _, hinfo⟩ := hmatched ⟨0⟩ node hn (by decide +kernel)
  refine ⟨stats, later, now, hrun, hnow, ?_, hinfo _ (by omega) (by decide +kernel)⟩
  rw [hcount, hports]
  rfl

/-- A generic maximum pooling without ports. -/
def portlessPool : Graph :=
  [Operation.addNode
      { opType := "Pooling", attributes := .ofList [("pool_method", .str "max")] }].foldl
    (fun graph operation => operation.perform.after graph) .empty

/-- It gets the port that is meant for the positions, and that is the only one. -/
theorem one_port_portlessPool :
    portlessPool.Reachable ∧ ⟨[("pool", ⟨0⟩)]⟩ ∈ Pass.maxPool.pattern.findAll portlessPool ∧
      ∃ stats later now, (Pass.maxPool.run true).run portlessPool = .ok stats later ∧
        later.node? ⟨0⟩ = some now ∧ now.outputs.length = 1 ∧ ¬ 2 ≤ now.outputs.length := by
  refine ⟨Graph.reachable_of_operations _, by decide +kernel, _, _, _, rfl, rfl, ?_, ?_⟩
  · decide +kernel
  · decide +kernel

end OpGraph
