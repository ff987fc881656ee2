import OpGraph.Proofs.Edit.PortOrder
import OpGraph.Proofs.Graph.Extended
import OpGraph.Proofs.Reachable

/-!
# The order at output ports over whole histories

An output port lists its connections in the order in which they came to it. Whatever happens to the
graph, a connection never gets in front of one that has been there longer, and of two connections that
never started elsewhere the one created first stands in front. So the consumers of a port are listed in
the order of the creation of their connections if none of them was moved to the port. A connection
that was moved stands behind younger ones.
-/

namespace OpGraph.Graph

open Edit

variable {start graph later : Graph} {operations : List Operation} {node : NodeId} {index moment : Nat}
  {id first second : ConnectionId}

/-! ### Single operations -/

/-- What happens to the lists of the output ports from one graph to the other. -/
structure Lines (graph later : Graph) : Prop where
  /-- What stays keeps its order in front of what comes. -/
  queued : graph.Queued later
  /-- New connections come in the order of their creation. -/
  renews : graph.Renews later

/-- Changes that move nothing. -/
theorem Unmoved.lines (h : graph.Unmoved later) (hgraph : graph.Coherent) : graph.Lines later :=
  ⟨(h.advances hgraph).queued, h.renews hgraph⟩

/-- A run of one pass moves connections and makes none, or makes connections and moves none. -/
theorem Coherent.lines_run_pass (h : graph.Coherent) {pass : Pass} (hpass : pass.Standard)
    (verify : Bool) : graph.Lines ((pass.run verify).after graph) := by
  refine ⟨(queuesAt_run_pass hpass verify h).queued, ?_⟩
  cases movingFirst_of_standard hpass with
  | markers _ does =>
    have hbarren : Keeps graph.Barren (pass.run verify) :=
      keeps_run_pass verify fun found => does ▸ barren_resolveMarker found
    have hchanges : Keeps graph.Changes (pass.run verify) :=
      keeps_run_pass verify fun found => does ▸ changes_resolveMarker found h
    exact (hbarren graph fun _ hnew => hnew).renews (h.changes (hchanges graph .refl)).linked
  | others _ _ still =>
    have hunmoved : Keeps graph.Unmoved (pass.run verify) :=
      keeps_run_pass verify fun found => still found graph h
    exact (hunmoved graph .refl).renews h

/-- Every operation keeps the order of what it leaves at a port and brings new connections in the
order of their creation. -/
theorem Coherent.lines_perform (h : graph.Coherent) (operation : Operation) :
    graph.Lines (operation.perform.after graph) := by
  have hstill : ∀ {edit : Edit Unit}, Keeps graph.Unmoved edit → graph.Lines (edit.after graph) :=
    fun hedit => (hedit graph .refl).lines h
  have hadd := additions_unmoved h
  cases operation with
  | addNode desc => exact hstill (keeps_discard (unmoved_addNode desc))
  | addInputPort id => exact hstill (keeps_discard (hadd.addInputPort id))
  | addOutputPort id => exact hstill (keeps_discard (hadd.addOutputPort id))
  | renameNode id name => exact hstill (unmoved_renameNode name h)
  | removeNode id mode => exact hstill (keeps_discard (unmoved_removeNode mode h))
  | connect source destination => exact hstill (keeps_discard (unmoved_connect h))
  | disconnect id => exact hstill (keeps_discard (unmoved_disconnect h))
  | disconnectInput id index =>
    exact hstill (keeps_discard (keeps_disconnectInput fun _ => unmoved_disconnect h))
  | rewireDestination id port => exact hstill (unmoved_rewireDestination h)
  | rewireSource id port =>
    have hgathers : Keeps (graph.Gathers port) (rewireSource id port) := gathers_rewireSource h
    have hbarren : Keeps graph.Barren (rewireSource id port) := barren_rewireSource
    have hlater := hgathers graph (.refl port graph)
    exact ⟨hlater.queued, (hbarren graph fun _ hnew => hnew).renews (h.changes hlater.changes).linked⟩
  | annotate port info => exact hstill (unmoved_annotate info h)
  | reannotate port info => exact hstill (unmoved_reannotate info h)
  | setOpType id opType => exact hstill (unmoved_setOpType opType h)
  | editAttributes id f =>
    exact hstill fun middle hmiddle => hmiddle.trans (unmoved_modifyNode (.attributes f) middle id)
  | inferNode registry id => exact hstill (keeps_discard (hadd.inferNode registry))
  | inferGraph registry => exact hstill (keeps_discard (hadd.inferGraph registry))
  | terminatePorts id ports => exact hstill (keeps_discard (hadd.terminatePorts ports))
  | terminate id => exact hstill (keeps_discard hadd.terminate)
  | runPass pass standard verify =>
    rw [Operation.perform, after_discard]
    exact h.lines_run_pass standard verify
  | runPasses passes standard verify =>
    rw [Operation.perform, after_discard]
    exact ⟨(queuesAt_run_passes standard verify h).queued, renews_run_passes standard verify h⟩

/-! ### Whole histories -/

/-- The connection has been listed at the output port ever since so many operations were performed. -/
def ListedSince (start : Graph) (operations : List Operation) (node : NodeId) (index moment : Nat)
    (id : ConnectionId) : Prop :=
  ∀ count, moment ≤ count → id ∈ (start.afterAll (operations.take count)).listed node index

/-- Wherever the connection started before or after any of the operations, that was at the output port. -/
def NeverElsewhere (start : Graph) (operations : List Operation) (node : NodeId) (index : Nat)
    (id : ConnectionId) : Prop :=
  ∀ count port, (start.afterAll (operations.take count)).source? id = some port →
    port = .output node index

/-- After the last operation nothing changes any more. -/
theorem neverElsewhere_iff : start.NeverElsewhere operations node index id ↔
    ∀ count ≤ operations.length, ∀ port ∈ (start.afterAll (operations.take count)).source? id,
      port = .output node index := by
  constructor
  · exact fun h count _ port hsource => h count port hsource
  · intro h count port hsource
    rw [List.take_eq_take_min] at hsource
    exact h _ (Nat.min_le_right _ _) port hsource

instance : Decidable (start.NeverElsewhere operations node index id) :=
  decidable_of_iff _ neverElsewhere_iff.symm

/-- Why one connection stands in front of another one at an output port. -/
structure InFront (start : Graph) (operations : List Operation) (node : NodeId) (index : Nat)
    (first second : ConnectionId) : Prop where
  /-- It has been there at least as long. -/
  longer : ∀ moment, start.ListedSince operations node index moment second →
    start.ListedSince operations node index moment first
  /-- Unless one of them was moved, it was created earlier. -/
  older : start.NeverElsewhere operations node index first →
    start.NeverElsewhere operations node index second → first.index < second.index

theorem afterAll_concat (start : Graph) (operations : List Operation) (operation : Operation) :
    start.afterAll (operations ++ [operation]) = operation.perform.after (start.afterAll operations) := by
  rw [afterAll, List.foldl_append]
  rfl

/-- The first operations of a longer history are first operations, or it is the whole history. -/
theorem take_concat (operations : List Operation) (operation : Operation) (count : Nat) :
    (operations ++ [operation]).take count =
      if count ≤ operations.length then operations.take count else operations ++ [operation] := by
  split
  · rename_i hcount
    exact List.take_append_of_le_length hcount
  · rename_i hcount
    exact List.take_of_length_le (by rw [List.length_append, List.length_singleton]; omega)

namespace ListedSince

variable {operation : Operation}

/-- What is listed after one more operation is so since then at least. -/
theorem of_mem (hmem : id ∈ (start.afterAll (operations ++ [operation])).listed node index)
    (hmoment : operations.length < moment) :
    start.ListedSince (operations ++ [operation]) node index moment id := by
  intro count hcount
  rwa [take_concat, if_neg (by omega)]

/-- What is still listed after one more operation has been so as long as before. -/
theorem concat (h : start.ListedSince operations node index moment id)
    (hmem : id ∈ (start.afterAll (operations ++ [operation])).listed node index) :
    start.ListedSince (operations ++ [operation]) node index moment id := by
  intro count hcount
  rw [take_concat]
  split
  · exact h count hcount
  · exact hmem

/-- Before the last operation it had been listed since the same moment, if it was listed at all. -/
theorem before (h : start.ListedSince (operations ++ [operation]) node index moment id)
    (hmem : id ∈ (start.afterAll operations).listed node index) :
    start.ListedSince operations node index moment id := by
  intro count hcount
  by_cases hlength : count ≤ operations.length
  · have hlisted := h count hcount
    rwa [take_concat, if_pos hlength] at hlisted
  · rwa [List.take_of_length_le (by omega)]

/-- What was not listed before the last operation is so since then at most. -/
theorem length_lt (h : start.ListedSince (operations ++ [operation]) node index moment id)
    (hmem : id ∉ (start.afterAll operations).listed node index) : operations.length < moment := by
  by_contra hmoment
  have hlisted := h operations.length (Nat.le_of_not_lt hmoment)
  rw [take_concat, if_pos (Nat.le_refl _), List.take_length] at hlisted
  exact hmem hlisted

end ListedSince

namespace NeverElsewhere

variable {operation : Operation} {port : PortRef}

theorem before (h : start.NeverElsewhere (operations ++ [operation]) node index id) :
    start.NeverElsewhere operations node index id := by
  intro count port hsource
  refine h (min count operations.length) port ?_
  rwa [take_concat, if_pos (Nat.min_le_right _ _), ← List.take_eq_take_min]

/-- If it is not at the port it is nowhere. -/
theorem source?_eq_none (h : start.NeverElsewhere operations node index id)
    (hother : (start.afterAll operations).source? id ≠ some (.output node index)) :
    (start.afterAll operations).source? id = none := by
  refine Option.eq_none_iff_forall_ne_some.mpr fun port hsource => hother ?_
  have hcount := h operations.length
  rw [List.take_length] at hcount
  rw [hsource, hcount port hsource]

end NeverElsewhere

namespace InFront

variable {operation : Operation}

/-- One connection stays in front of another one. -/
theorem concat (h : start.InFront operations node index first second)
    (hfirst : first ∈ (start.afterAll (operations ++ [operation])).listed node index)
    (hsecond : second ∈ (start.afterAll operations).listed node index) :
    start.InFront (operations ++ [operation]) node index first second where
  longer moment hsince := (h.longer moment (hsince.before hsecond)).concat hfirst
  older hown hother := h.older hown.before hother.before

/-- Every connection that is listed stands in front of what comes to the list with the last
operation, unless the two came together in another order than they were created. -/
theorem of_came (hfirst : first ∈ (start.afterAll (operations ++ [operation])).listed node index)
    (hsecond : second ∉ (start.afterAll operations).listed node index)
    (holder : start.NeverElsewhere operations node index first →
      (start.afterAll operations).source? second = none → first.index < second.index)
    (hlinked : (start.afterAll operations).Linked) :
    start.InFront (operations ++ [operation]) node index first second where
  longer _ hsince := .of_mem hfirst (hsince.length_lt hsecond)
  older hown hother := holder hown.before <| hother.before.source?_eq_none fun hsource =>
    hsecond ((hlinked.listed_iff node index second).mpr hsource)

end InFront

/-- What comes to a list is new to it. -/
theorem Linked.notMem_of_came (h : later.Linked) {came : List ConnectionId}
    (hlisted : later.listed node index =
      (graph.listed node index).filter (· ∈ later.listed node index) ++ came)
    (hid : id ∈ came) : id ∉ graph.listed node index := by
  intro hmem
  have hnodup := h.nodup node index
  have hlater : id ∈ later.listed node index := hlisted ▸ List.mem_append_right _ hid
  rw [hlisted] at hnodup
  exact (List.nodup_append.mp hnodup).2.2 id (List.mem_filter.mpr ⟨hmem, decide_eq_true hlater⟩) id hid rfl

/-- A connection that appears has not been counted before. -/
theorem Later.le_of_source? (h : graph.Later later) {port : PortRef} (hbefore : graph.source? id = none)
    (hafter : later.source? id = some port) : graph.nextConnection ≤ id.index := by
  by_contra hcounted
  rw [h.source?_eq_none (Nat.lt_of_not_le hcounted) hbefore] at hafter
  cases hafter

/-- One more operation leaves every list in the order of arrival. -/
theorem Coherent.inFront_perform (h : (start.afterAll operations).Coherent) (operation : Operation)
    (hfront : ((start.afterAll operations).listed node index).Pairwise
      (start.InFront operations node index)) :
    ((start.afterAll (operations ++ [operation])).listed node index).Pairwise
      (start.InFront (operations ++ [operation]) node index) := by
  have hlines := h.lines_perform operation
  have hchanges := h.changes_perform operation
  rw [← afterAll_concat] at hlines hchanges
  have hlinked := (h.changes hchanges).linked
  obtain ⟨came, hlisted⟩ := hlines.queued node index
  have hcame : ∀ id ∈ came, id ∉ (start.afterAll operations).listed node index :=
    fun _ => hlinked.notMem_of_came hlisted
  have hmem : ∀ id ∈ came, id ∈ (start.afterAll (operations ++ [operation])).listed node index :=
    fun id hid => hlisted ▸ List.mem_append_right _ hid
  have hrenews := hlines.renews node index
  rw [hlisted, List.pairwise_append] at hrenews
  rw [hlisted]
  refine List.pairwise_append.mpr ⟨?kept, ?came, fun first hfirst second hsecond => ?between⟩
  case kept =>
    refine (hfront.filter _).imp_of_mem fun hfirst hsecond hpair => hpair.concat ?_ ?_
    · exact of_decide_eq_true (List.mem_filter.mp hfirst).2
    · exact List.mem_of_mem_filter hsecond
  case came =>
    refine hrenews.2.1.imp_of_mem fun hfirst hsecond horder =>
      .of_came (hmem _ hfirst) (hcame _ hsecond) (fun hown hnew => horder ?_ hnew) h.linked
    exact hown.source?_eq_none fun hsource => hcame _ hfirst ((h.linked.listed_iff _ _ _).mpr hsource)
  case between =>
    -- What is left of the list was counted before, and what is new was not.
    obtain ⟨hbefore, hafter⟩ := List.mem_filter.mp hfirst
    refine .of_came (of_decide_eq_true hafter) (hcame _ hsecond) (fun _ hnew => ?_) h.linked
    exact Nat.lt_of_lt_of_le (h.lt_of_mem_listed hbefore) ((Later.of_changes hchanges).le_of_source? hnew
      ((hlinked.listed_iff node index second).mp (hmem second hsecond)))

/-- An initial graph comes about without moves. -/
theorem Initial.unmoved (h : Initial graph) : Unmoved .empty graph := by
  cases h with
  | empty => exact .refl
  | @imported model _ _ success =>
    obtain ⟨extracted, _, hrun⟩ := SourceModel.toGraph_eq_ok_iff.mp success
    have hbuild := unmoved_build model extracted .empty Graph.empty .refl
    rwa [after_of_run_ok hrun] at hbuild

/-- Through any operations every list stays in the order of arrival. -/
theorem Initial.pairwise_inFront (h : Initial start) (operations : List Operation) (node : NodeId)
    (index : Nat) :
    ((start.afterAll operations).listed node index).Pairwise (start.InFront operations node index) := by
  induction operations using List.reverseRecOn with
  | nil =>
    refine (h.unmoved.renews .empty node index).imp_of_mem fun hfirst _ horder =>
      ⟨fun _ _ _ _ => ?_, fun _ _ => horder rfl rfl⟩
    rwa [List.take_nil]
  | append_singleton before operation ih =>
    exact (h.coherent.changes ((history_afterAll start before).changes h.coherent)).inFront_perform
      operation ih

/-! ### Consumers -/

/-- What an output port lists is what the table lets start there. -/
theorem Coherent.listed_perm (h : graph.Coherent) (node : NodeId) (index : Nat) :
    (graph.listed node index).Perm
      ((graph.connections.toList.filter (·.2.source = .output node index)).map Prod.fst) := by
  have hnodup : ((graph.connections.toList.filter (·.2.source = .output node index)).map Prod.fst).Nodup :=
    graph.connections.nodup_keys.sublist (List.filter_sublist.map Prod.fst)
  refine (List.perm_ext_iff_of_nodup (h.linked.nodup node index) hnodup).mpr fun id => ?_
  rw [h.linked.listed_iff, source?, Option.map_eq_some_iff]
  simp [connection?, OrderedMap.get?_eq_some_iff]

/-- Where a port lists its connections in the order of their creation, its consumers are those of the
table, in the order of the table. -/
theorem Coherent.outputDestinations_of_pairwise (h : graph.Coherent)
    (hordered : (graph.listed node index).Pairwise (·.index < ·.index)) :
    graph.outputDestinations node index =
      (graph.connections.values.filter (·.source = .output node index)).map (·.destination) := by
  have htable : ((graph.connections.toList.filter (·.2.source = .output node index)).map
      Prod.fst).Pairwise (·.index < ·.index) :=
    (List.pairwise_map.mp h.counted.1).sublist (List.filter_sublist.map Prod.fst)
  have hlisted := (h.listed_perm node index).eq_of_pairwise
    (fun _ _ _ _ hlt hgt => absurd hlt (Nat.lt_asymm hgt)) hordered htable
  rw [outputDestinations_eq, hlisted, List.filterMap_map, OrderedMap.values, List.filter_map, List.map_map,
    ← List.filterMap_eq_map]
  refine List.filterMap_congr fun entry hentry => ?_
  have hfound := (graph.connections.get?_eq_some_iff entry.1 entry.2).mpr (List.mem_of_mem_filter hentry)
  simp [destination?, connection?, hfound]

/-- The output ports of a reachable graph list their connections in the order of arrival: if one stands
in front of another, it has been there at least as long, and it was created earlier unless one of them
was moved from another port. A port to which no connection was moved lists them in the order of their
creation, and its consumers in the same order. -/
theorem listed_in_order_of_arrival (h : Initial start) (operations : List Operation) (node : NodeId)
    (index : Nat) :
    let graph := start.afterAll operations
    (graph.listed node index).Pairwise (start.InFront operations node index) ∧
      ((∀ id ∈ graph.listed node index, start.NeverElsewhere operations node index id) →
        (graph.listed node index).Pairwise (·.index < ·.index) ∧
          graph.outputDestinations node index =
            (graph.connections.values.filter (·.source = .output node index)).map (·.destination)) := by
  have hfront := h.pairwise_inFront operations node index
  refine ⟨hfront, fun hnever => ?_⟩
  have hordered : ((start.afterAll operations).listed node index).Pairwise (·.index < ·.index) :=
    hfront.imp_of_mem fun hfirst hsecond hpair => hpair.older (hnever _ hfirst) (hnever _ hsecond)
  have hcoherent := h.coherent.changes ((history_afterAll start operations).changes h.coherent)
  exact ⟨hordered, hcoherent.outputDestinations_of_pairwise hordered⟩

/-- Two producers and two consumers, each producer connected to a consumer of its own. -/
def pairedNodes : List Operation :=
  [.addNode { opType := "Relu", name := some "a", outputs := 1 },
    .addNode { opType := "Relu", name := some "b", outputs := 1 },
    .addNode { opType := "Relu", name := some "c", inputs := 1 },
    .addNode { opType := "Relu", name := some "d", inputs := 1 },
    .connect (.output ⟨0⟩ 0) (.input ⟨2⟩ 0), .connect (.output ⟨1⟩ 0) (.input ⟨3⟩ 0)]

/-- After both producers lost their consumers, one of them gets both. -/
theorem listed_in_order_of_arrival_pairedNodes :
    let graph := empty.afterAll (pairedNodes ++ [.disconnect ⟨0⟩, .disconnectInput ⟨3⟩ 0,
      .connect (.output ⟨1⟩ 0) (.input ⟨3⟩ 0), .connect (.output ⟨1⟩ 0) (.input ⟨2⟩ 0)])
    graph.listed ⟨1⟩ 0 = [⟨2⟩, ⟨3⟩] ∧ (graph.listed ⟨1⟩ 0).Pairwise (·.index < ·.index) ∧
      graph.outputDestinations ⟨1⟩ 0 =
        (graph.connections.values.filter (·.source = .output ⟨1⟩ 0)).map (·.destination) :=
  ⟨by decide +kernel, (listed_in_order_of_arrival .empty _ ⟨1⟩ 0).2 (by decide +kernel)⟩

/-- When the older connection is moved to the producer of the younger one, it stands at the end there. -/
theorem listed_behind_younger_pairedNodes :
    let moved := empty.afterAll (pairedNodes ++ [.rewireSource ⟨0⟩ (.output ⟨1⟩ 0)])
    moved.Reachable ∧ moved.listed ⟨1⟩ 0 = [⟨1⟩, ⟨0⟩] ∧
      ¬ (moved.listed ⟨1⟩ 0).Pairwise (·.index < ·.index) ∧
      moved.outputDestinations ⟨1⟩ 0 = [.input ⟨3⟩ 0, .input ⟨2⟩ 0] :=
  ⟨reachable_of_operations _, by decide +kernel, by decide +kernel, by decide +kernel⟩

end OpGraph.Graph
