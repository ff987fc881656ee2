import Mathlib.Data.Set.Card
import OpGraph.Proofs.Graph.Feed
import OpGraph.Proofs.Reachable
import OpGraph.Validation

/-!
# What validation decides

Validation reads the lists of output ports and the slots of input ports, each on its own. In a
graph that edits have built these agree with the table of connections. There the errors about
connections never occur, and the others decide whether every node has a type and every output
port starts a connection of the table. The warnings count the output ports about which nothing is
known.
-/

namespace OpGraph.Graph

variable {graph : Graph} {report : ValidationReport} {id : NodeId} {port : PortRef}
  {connection : ConnectionId}

/-! ### Errors about connections -/

/-- Nothing is wrong where a connection starts if this is an output port that lists it. -/
theorem sourceErrors_eq_nil_iff :
    graph.sourceErrors connection port = [] ↔
      port.direction = .output ∧ connection ∈ graph.listed port.node port.index := by
  have hport : (graph.outputPort? port.node port.index).map (·.connections) =
      (graph.node? port.node).bind fun node => (node.outputs[port.index]?).map (·.connections) := by
    rw [outputPort?]
    cases graph.node? port.node <;> rfl
  have hlisted : graph.listed port.node port.index =
      ((graph.outputPort? port.node port.index).map (·.connections)).getD [] := by
    rw [hport, listed]
    cases graph.node? port.node <;> rfl
  rw [sourceErrors, hlisted]
  cases hdir : port.direction <;> cases graph.outputPort? port.node port.index <;>
    simp [PortRef.isOutput, hdir]

/-- Nothing is wrong where a connection ends if this is an input port that holds it. -/
theorem destinationErrors_eq_nil_iff :
    graph.destinationErrors connection port = [] ↔
      port.direction = .input ∧ graph.inputConnection? port.node port.index = some connection := by
  rw [destinationErrors, inputConnection?]
  cases hdir : port.direction <;> cases graph.inputPort? port.node port.index <;>
    simp [PortRef.isInput, hdir]

/-- Where all records agree nothing is wrong with any connection. -/
theorem Coherent.connectionErrors_eq_nil (h : graph.Coherent) : graph.connectionErrors = [] := by
  refine List.flatMap_eq_nil_iff.mpr fun ⟨id, ends⟩ hmem => ?_
  have hends : graph.connection? id = some ends := (graph.connections.get?_eq_some_iff id ends).mpr hmem
  obtain ⟨hsource, hdestination, hcount, hslot⟩ := (h.consistent.recorded id ends).mp hends
  have hlisted := List.count_pos_iff.mp (hcount ▸ Nat.one_pos)
  exact List.append_eq_nil_iff.mpr ⟨sourceErrors_eq_nil_iff.mpr ⟨hsource, hlisted⟩,
    destinationErrors_eq_nil_iff.mpr ⟨hdestination, hslot⟩⟩

/-! ### Errors about nodes -/

/-- Nothing is wrong with a node if it has a type and something is listed at every output. -/
theorem nodeErrors_eq_nil_iff {node : Node} :
    nodeErrors node = [] ↔
      node.opType ≠ "" ∧ ∀ index < node.outputs.length, node.listed index ≠ [] := by
  have htype : (if node.opType = "" then [Finding.noType node.name] else []) = [] ↔
      node.opType ≠ "" := by
    split <;> simp_all
  have houtputs : ((node.outputs.filter (·.isDisconnected)).map fun port =>
      Finding.openOutput node.name node.opType port.index) = [] ↔
      ∀ index < node.outputs.length, node.listed index ≠ [] := by
    rw [List.map_eq_nil_iff, List.filter_eq_nil_iff, List.forall_mem_iff_getElem]
    refine forall_congr' fun index => forall_congr' fun hindex => ?_
    rw [Node.listed_of_lt hindex, OutputPort.isDisconnected, List.isEmpty_iff]
  rw [nodeErrors, List.append_eq_nil_iff, htype, houtputs]

/-- A port feeds something exactly if a connection of the table starts there. -/
theorem Linked.feeds_iff_exists_connection (h : graph.Linked) (index : Nat) :
    graph.Feeds (.output id index) ↔
      ∃ connection ends, graph.connection? connection = some ends ∧ ends.source = .output id index := by
  have hlisted : graph.listed id index ≠ [] ↔ ∃ connection, connection ∈ graph.listed id index :=
    ⟨List.exists_mem_of_ne_nil _, fun ⟨_, hmem⟩ => List.ne_nil_of_mem hmem⟩
  rw [← h.listed_ne_nil_iff, hlisted]
  refine exists_congr fun connection => ?_
  rw [h.listed_iff, source?, Option.map_eq_some_iff]

/-- A coherent graph is without errors if every node has a type and every output port feeds
something. -/
theorem Coherent.errors_eq_nil_iff (h : graph.Coherent) :
    graph.validate.errors = [] ↔ ∀ id node, graph.node? id = some node →
      node.opType ≠ "" ∧ ∀ index < node.outputs.length, graph.Feeds (.output id index) := by
  have hlisted : ∀ id node index, graph.node? id = some node →
      (node.listed index ≠ [] ↔ graph.Feeds (.output id index)) := fun id node index hn => by
    rw [← h.linked.listed_ne_nil_iff, listed, hn]
    rfl
  change ((graph.nodes.values.flatMap nodeErrors) ++ graph.connectionErrors).map (·.message) = [] ↔ _
  rw [h.connectionErrors_eq_nil, List.append_nil, List.map_eq_nil_iff, List.flatMap_eq_nil_iff]
  constructor
  · intro hall id node hn
    obtain ⟨htype, houtputs⟩ := nodeErrors_eq_nil_iff.mp
      (hall node ((graph.nodes.mem_values_iff node).mpr ⟨id, hn⟩))
    exact ⟨htype, fun index hindex => (hlisted id node index hn).mp (houtputs index hindex)⟩
  · intro hall node hmem
    obtain ⟨id, hn⟩ := (graph.nodes.mem_values_iff node).mp hmem
    obtain ⟨htype, houtputs⟩ := hall id node hn
    exact nodeErrors_eq_nil_iff.mpr
      ⟨htype, fun index hindex => (hlisted id node index hn).mpr (houtputs index hindex)⟩

/-- Validation succeeds with a report without errors. -/
theorem checkCanonical_eq_ok_iff :
    graph.checkCanonical = .ok report ↔ report = graph.validate ∧ graph.validate.errors = [] := by
  unfold checkCanonical
  by_cases hvalid : graph.validate.isValid = true
  · rw [if_pos hvalid, Except.ok.injEq, eq_comm]
    exact ⟨fun h => ⟨h, List.isEmpty_iff.mp hvalid⟩, And.left⟩
  · rw [if_neg hvalid]
    refine ⟨fun h => (by cases h), fun ⟨_, hnil⟩ => absurd ?_ hvalid⟩
    rw [ValidationReport.isValid, hnil]
    rfl

/-! ### Warnings -/

/-- Output ports about which nothing is known, in the order of the nodes. -/
def openInfos (graph : Graph) : List PortRef :=
  graph.nodes.toList.flatMap fun (id, node) =>
    (node.outputs.filter fun port => port.info.isNone).map fun port => .output id port.index

/-- There is one warning for each output port about which nothing is known. -/
theorem length_warnings (graph : Graph) : graph.validate.warnings.length = graph.openInfos.length := by
  have hnodes : ∀ entries : List (NodeId × Node),
      ((entries.map Prod.snd).flatMap nodeWarnings).length =
        (entries.flatMap fun (id, node) =>
          (node.outputs.filter fun port => port.info.isNone).map fun port =>
            PortRef.output id port.index).length := by
    intro entries
    induction entries with
    | nil => rfl
    | cons head tail ih =>
      simp only [List.map_cons, List.flatMap_cons, List.length_append, ih, nodeWarnings,
        List.length_map]
  change ((graph.nodes.values.flatMap nodeWarnings).map (·.message)).length = _
  rw [List.length_map]
  exact hnodes graph.nodes.toList

theorem Coherent.mem_openInfos_iff (h : graph.Coherent) :
    port ∈ graph.openInfos ↔
      port.direction = .output ∧ graph.HasPort port ∧ graph.outputInfo? port = none := by
  unfold openInfos
  simp only [List.mem_flatMap, List.mem_map, List.mem_filter, Prod.exists]
  constructor
  · rintro ⟨id, node, hmem, output, ⟨houtput, hinfo⟩, rfl⟩
    have hn : graph.node? id = some node := (graph.nodes.get?_eq_some_iff id node).mpr hmem
    obtain ⟨index, hindex⟩ := List.mem_iff_getElem?.mp houtput
    obtain rfl := (h.registered.indexed id node hn).2 index output hindex
    refine ⟨rfl, ⟨node, hn, (List.getElem?_eq_some_iff.mp hindex).1⟩, ?_⟩
    rw [outputInfo?_output (bare?_of_node? hn), Node.bare, List.getElem?_map, hindex]
    exact Option.isNone_iff_eq_none.mp hinfo
  · rintro ⟨hdir, ⟨node, hn, hindex⟩, hinfo⟩
    rw [hdir] at hindex
    change port.index < node.outputs.length at hindex
    rw [PortRef.eq_output hdir] at hinfo ⊢
    rw [outputInfo?_output (bare?_of_node? hn), Node.bare, List.getElem?_map,
      List.getElem?_eq_getElem hindex] at hinfo
    refine ⟨port.node, node, (graph.nodes.get?_eq_some_iff _ node).mp hn, node.outputs[port.index],
      ⟨List.getElem_mem hindex, Option.isNone_iff_eq_none.mpr hinfo⟩, ?_⟩
    rw [(h.registered.indexed _ node hn).2 port.index _ (List.getElem?_eq_getElem hindex)]

/-- No port is listed twice: nodes have their own numbers and ports their own positions. -/
theorem Coherent.nodup_openInfos (h : graph.Coherent) : graph.openInfos.Nodup := by
  refine List.nodup_flatMap.mpr ⟨fun ⟨id, node⟩ hmem => ?_, ?_⟩
  · have hn : graph.node? id = some node := (graph.nodes.get?_eq_some_iff id node).mpr hmem
    have hpositions : node.outputs.map (·.index) = List.range node.outputs.length := by
      refine List.ext_getElem (by simp) fun index hindex _ => ?_
      rw [List.length_map] at hindex
      rw [List.getElem_map, List.getElem_range]
      exact (h.registered.indexed id node hn).2 index _ (List.getElem?_eq_getElem hindex)
    have hnodup : ((node.outputs.filter fun port => port.info.isNone).map (·.index)).Nodup :=
      (hpositions ▸ List.nodup_range : (node.outputs.map (·.index)).Nodup).sublist
        (List.filter_sublist.map _)
    have hports := hnodup.map (f := PortRef.output id) fun _ _ hsame => (PortRef.mk.inj hsame).2.2
    rwa [List.map_map] at hports
  · have hkeys := List.pairwise_map.mp graph.nodes.nodup_keys
    refine hkeys.imp fun hne => ?_
    rw [Function.onFun, List.disjoint_left]
    intro port hfirst hsecond
    obtain ⟨_, _, rfl⟩ := List.mem_map.mp hfirst
    obtain ⟨_, _, hsame⟩ := List.mem_map.mp hsecond
    exact hne (PortRef.mk.inj hsame).1.symm

/-- The number of warnings is the number of output ports about which nothing is known. -/
theorem Coherent.length_warnings_eq_ncard (h : graph.Coherent) :
    graph.validate.warnings.length =
      {port : PortRef | port.direction = .output ∧ graph.HasPort port ∧
        graph.outputInfo? port = none}.ncard := by
  have hset : {port : PortRef | port.direction = .output ∧ graph.HasPort port ∧
      graph.outputInfo? port = none} = graph.openInfos.toFinset := by
    ext port
    rw [Set.mem_ofPred_eq, Finset.mem_coe, List.mem_toFinset, h.mem_openInfos_iff]
  rw [hset, Set.ncard_coe_finset, List.toFinset_card_of_nodup h.nodup_openInfos, length_warnings]

/-- Validation of a reachable graph finds no error about connections, succeeds exactly if every
node has a type and every output port is the source of a connection of the table, and counts in
its warnings the output ports without an annotation. -/
theorem validation_decides (h : graph.Reachable) :
    graph.connectionErrors = [] ∧
      ((∃ report, graph.checkCanonical = .ok report) ↔
        (∀ id node, graph.node? id = some node → node.opType ≠ "") ∧
          ∀ port, graph.HasPort port → port.direction = .output →
            ∃ connection ends, graph.connection? connection = some ends ∧ ends.source = port) ∧
      graph.validate.warnings.length =
        {port : PortRef | port.direction = .output ∧ graph.HasPort port ∧
          graph.outputInfo? port = none}.ncard := by
  have hcoherent := h.coherent
  refine ⟨hcoherent.connectionErrors_eq_nil, ?_, hcoherent.length_warnings_eq_ncard⟩
  simp only [checkCanonical_eq_ok_iff, exists_eq_left, hcoherent.errors_eq_nil_iff]
  constructor
  · intro hall
    refine ⟨fun id node hn => (hall id node hn).1, fun port ⟨node, hn, hindex⟩ hdir => ?_⟩
    rw [PortRef.eq_output hdir] at hindex ⊢
    exact (hcoherent.linked.feeds_iff_exists_connection port.index).mp
      ((hall port.node node hn).2 port.index hindex)
  · rintro ⟨htypes, houtputs⟩ id node hn
    refine ⟨htypes id node hn, fun index hindex => ?_⟩
    exact (hcoherent.linked.feeds_iff_exists_connection index).mpr
      (houtputs (.output id index) ⟨node, hn, hindex⟩ rfl)

/-- A graph input of unknown shape that is connected to a graph output. -/
def unknownInput : Graph :=
  empty.afterAll
    [.addNode { opType := "Parameter", outputs := 1 }, .addNode { opType := "Result", inputs := 1 },
      .connect (.output ⟨0⟩ 0) (.input ⟨1⟩ 0)]

/-- The graph passes with one warning, so exactly one of its output ports carries no annotation. -/
theorem validation_decides_unknownInput :
    (∃ report, unknownInput.checkCanonical = .ok report) ∧
      {port : PortRef | port.direction = .output ∧ unknownInput.HasPort port ∧
        unknownInput.outputInfo? port = none}.ncard = 1 ∧
      ∀ port, unknownInput.HasPort port → port.direction = .output →
        ∃ connection ends, unknownInput.connection? connection = some ends ∧ ends.source = port := by
  have hreachable : unknownInput.Reachable := ⟨.empty, .empty, history_afterAll _ _⟩
  obtain ⟨_, hcheck, hwarnings⟩ := validation_decides hreachable
  have hvalid : ∃ report, unknownInput.checkCanonical = .ok report :=
    ⟨_, checkCanonical_eq_ok_iff.mpr ⟨rfl, by decide +kernel⟩⟩
  have hcount : unknownInput.validate.warnings.length = 1 := by decide +kernel
  exact ⟨hvalid, hwarnings.symm.trans hcount, (hcheck.mp hvalid).2⟩

end OpGraph.Graph
