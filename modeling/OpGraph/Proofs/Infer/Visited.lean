import Mathlib.Data.Bool.Count
import OpGraph.Proofs.Infer.Run

/-!
# Visits of all nodes

Whatever functions are registered, visits that put sources first and succeed leave a solution
behind: every output that was open says what the function of its node finds out from what is said,
in the end, at the inputs. Visits in another such order find out just that. Afterwards nothing is
open any more, except that nodes without outputs count as open for ever. With the functions of the
standard registry a solution is a settled graph, and a settled graph is the solution for whatever
part of it is hidden.
-/

namespace OpGraph

open Edit

namespace Graph

variable {registry : InferRegistry} {graph start now result final : Graph} {id : NodeId}
  {node : Node} {all done order other : List NodeId} {inferred : Bool}

/-- The list has every node of the graph once and after all that it reads. -/
def IsOrder (graph : Graph) (order : List NodeId) : Prop :=
  graph.SourcesFirst [] order ∧ ∀ id, id ∈ order ↔ (graph.node? id).isSome = true

/-- Inference has something to do at the node. -/
def pending (graph : Graph) (id : NodeId) : Bool :=
  (graph.node? id).any fun node => !Infer.isAnnotated node

/-- The graph after successful visits of some nodes of the graph at the start. -/
structure Visited (registry : InferRegistry) (start : Graph) (done : List NodeId)
    (now : Graph) : Prop where
  /-- The records agree. -/
  coherent : now.Coherent
  /-- All that was added is what is said about visited nodes that were open. -/
  hidden : (now.hide fun id => start.pending id && decide (id ∈ done)) = start
  /-- It is what the function of the node finds out from what is known at the inputs now. -/
  computed : ∀ id node, id ∈ done → start.node? id = some node → start.pending id = true →
    ∃ inputs outputs, now.Receives id node.inputs.length inputs ∧
      node.ComputedBy registry inputs outputs ∧ now.node? id = some (node.inform 0 outputs)

/-! ### Orders -/

/-- An order has every node of the graph once. -/
theorem SourcesFirst.nodup (h : graph.SourcesFirst done order) (hdone : done.Nodup) :
    (done ++ order).Nodup := by
  induction order generalizing done with
  | nil => simpa using hdone
  | cons id rest ih =>
    obtain ⟨hnew, _, hrest⟩ := h
    have hlater := ih hrest (List.nodup_append_comm.mp (List.nodup_cons.mpr ⟨hnew, hdone⟩))
    rwa [List.append_assoc] at hlater

/-- An order lists the keys of the nodes. -/
theorem IsOrder.perm (h : graph.IsOrder order) : order.Perm graph.nodes.keys := by
  have hnodup : order.Nodup := h.1.nodup List.nodup_nil
  refine (List.perm_ext_iff_of_nodup hnodup graph.nodes.nodup_keys).mpr fun id => ?_
  exact (h.2 id).trans (graph.nodes.mem_keys_iff id).symm

theorem Coherent.isOrder_of_topologicalOrder (h : graph.Coherent)
    (horder : graph.topologicalOrder = .ok order) : graph.IsOrder order :=
  h.sourcesFirst_of_order horder

/-- If nodes can be ordered there is no cycle. -/
theorem IsOrder.acyclic (h : graph.IsOrder order) : graph.Acyclic := by
  refine ⟨order.idxOf, fun id source hreads => ?_⟩
  have hlt := h.1.idxOf_lt ((h.2 id).mpr hreads.isSome) hreads
  simpa using hlt

theorem pending_eq (hn : graph.node? id = some node) :
    graph.pending id = !Infer.isAnnotated node := by
  rw [pending, hn]
  rfl

/-! ### From visits to a solution -/

namespace Visited

/-- Before any visit. -/
theorem none (h : graph.Coherent) : Visited registry graph [] graph where
  coherent := h
  hidden := hide_eq_self fun _ _ _ => by simp [Node.forgetIf]
  computed _ _ hid := absurd hid List.not_mem_nil

variable (h : Visited registry start done now)
include h

/-- Visits change no feeds. -/
theorem inputSource? (id : NodeId) (index : Nat) :
    now.inputSource? id index = start.inputSource? id index := by
  rw [← h.hidden, inputSource?_hide]

theorem reads_iff {source : NodeId} : now.Reads id source ↔ start.Reads id source :=
  ⟨fun hreads => hreads.congr h.inputSource?,
    fun hreads => hreads.congr fun id index => (h.inputSource? id index).symm⟩

/-- The node as it was is the node as it is, without what was added. -/
theorem node?_start (id : NodeId) : start.node? id =
    (now.node? id).map (Node.forgetIf (start.pending id && decide (id ∈ done))) := by
  conv_lhs => rw [← h.hidden]
  exact node?_hide _ _ _

/-- A node that was not visited is as it was. -/
theorem node?_of_notMem (hid : id ∉ done) : now.node? id = start.node? id := by
  rw [h.node?_start id, decide_eq_false hid, Bool.and_false]
  cases now.node? id <;> rfl

/-- A visit that finds something to do informs the node. -/
theorem inform {inputs outputs : List TensorInfo} (hid : id ∉ done)
    (hreaders : ∀ other ∈ id :: done, ¬ start.Reads other id) (hn : start.node? id = some node)
    (hblank : node.IsBlank) (hreceives : now.Receives id node.inputs.length inputs)
    (hcomputed : node.ComputedBy registry inputs outputs) (hpending : start.pending id = true) :
    Visited registry start (done ++ [id]) (now.inform id outputs) := by
  have hnow : now.node? id = some node := (h.node?_of_notMem hid).trans hn
  -- Nobody who was visited, nor the node itself, reads what is written.
  have hknown : ∀ other ∈ id :: done, ∀ index,
      (now.inform id outputs).known? other index = now.known? other index := fun other hother =>
    known?_inform fun hreads => hreaders other hother (h.reads_iff.mp hreads)
  refine ⟨h.coherent.change (.modifyNode id (.inform outputs)), ?_,
    fun other own hother hown hopen => ?_⟩
  · rw [hide_inform now outputs (by simp [hpending])]
    refine Eq.trans (hide_congr fun other own hown => ?_) h.hidden
    by_cases hsame : other = id
    · subst hsame
      rw [hnow, Option.some.injEq] at hown
      rw [← hown, hblank.forgetIf, hblank.forgetIf]
    · simp [hsame]
  · by_cases hsame : other = id
    · subst hsame
      rw [hn, Option.some.injEq] at hown
      subst hown
      refine ⟨inputs, outputs, hreceives.congr fun index _ => hknown other (by simp) index,
        hcomputed,
        ?_⟩
      rw [Graph.inform, node?_modifyNode, if_pos rfl, hnow]
      rfl
    · have hold : other ∈ done := by simpa [hsame] using hother
      obtain ⟨found, said, hfound, hsaid, hnode⟩ := h.computed other own hold hown hopen
      refine ⟨found, said,
        hfound.congr fun index _ => hknown other (List.mem_cons_of_mem id hold) index, hsaid, ?_⟩
      rw [Graph.inform, node?_modifyNode, if_neg hsame, hnode]

/-- A visit tells whether the node was open. -/
theorem step (hid : id ∉ done) (hreaders : ∀ other ∈ id :: done, ¬ start.Reads other id)
    (hn : start.node? id = some node)
    (hrun : (Infer.inferNode registry id).run now = .ok inferred result) :
    Visited registry start (done ++ [id]) result := by
  have hnow : now.node? id = some node := (h.node?_of_notMem hid).trans hn
  rcases (Infer.run_inferNode_eq_ok_iff h.coherent hnow).mp hrun with ⟨hannotated, _, hresult⟩ |
    ⟨hannotated, hblank, _, inputs, outputs, hreceives, hcomputed, hresult⟩
  · have hclosed : start.pending id = false := by rw [pending_eq hn, hannotated]; rfl
    rw [hresult]
    refine ⟨h.coherent, ?_, fun other own hother hown hopen => ?_⟩
    · refine Eq.trans (hide_congr fun other own _ => ?_) h.hidden
      by_cases hsame : other = id
      · simp [hsame, hclosed]
      · simp [hsame]
    · have hne : other ≠ id := fun hsame => by
        rw [hsame, hclosed] at hopen
        cases hopen
      exact h.computed other own (by simpa [hne] using hother) hown hopen
  · have hopen : start.pending id = true := by rw [pending_eq hn, hannotated]; rfl
    rw [hresult]
    exact h.inform hid hreaders hn hblank hreceives hcomputed hopen

/-- A visit of the next node in an order, after which all that visited nodes read is still
visited. -/
theorem step_of_sourcesFirst (horder : start.SourcesFirst done (id :: order))
    (hclosed : ∀ other ∈ done, ∀ source, start.Reads other source → source ∈ done)
    (hn : start.node? id = some node)
    (hrun : (Infer.inferNode registry id).run now = .ok inferred result) :
    Visited registry start (done ++ [id]) result ∧
      ∀ other ∈ done ++ [id], ∀ source, start.Reads other source → source ∈ done ++ [id] := by
  obtain ⟨hid, hsources, _⟩ := horder
  refine ⟨h.step hid (fun other hother hreads => ?_) hn hrun, fun other hother source hreads => ?_⟩
  · rcases List.mem_cons.mp hother with hself | hold
    · exact hid (hsources id (hself ▸ hreads))
    · exact hid (hclosed other hold id hreads)
  · rcases List.mem_append.mp hother with hold | hnew
    · exact List.mem_append_left _ (hclosed other hold source hreads)
    · exact List.mem_append_left _ (hsources source (List.mem_singleton.mp hnew ▸ hreads))

/-- Successful visits in an order lead on. -/
theorem of_run_mapM {answers : List Bool} (horder : start.SourcesFirst done order)
    (hclosed : ∀ id ∈ done, ∀ source, start.Reads id source → source ∈ done)
    (hexists : ∀ id ∈ order, (start.node? id).isSome = true)
    (hrun : (order.mapM (Infer.inferNode registry)).run now = .ok answers final) :
    Visited registry start (done ++ order) final := by
  induction order generalizing done now answers with
  | nil =>
    rw [List.mapM_nil] at hrun
    cases hrun
    simpa using h
  | cons id rest ih =>
    rw [List.mapM_cons] at hrun
    obtain ⟨_, middle, hvisit, hrun⟩ := run_bind_eq_ok.mp hrun
    obtain ⟨_, _, hvisits, hpure⟩ := run_bind_eq_ok.mp hrun
    cases hpure
    obtain ⟨node, hn⟩ := Option.isSome_iff_exists.mp (hexists id (by simp))
    obtain ⟨hstep, hclosed⟩ := h.step_of_sourcesFirst horder hclosed hn hvisit
    have hlater := ih hstep horder.2.2 hclosed
      (fun other hother => hexists other (List.mem_cons_of_mem id hother)) hvisits
    rwa [List.append_assoc] at hlater

end Visited

/-! ### From a solution to visits -/

namespace Visited

variable (h : Visited registry start all final)
include h

/-- A visit whose sources are settled finds out what the solution says. -/
theorem run_inferNode {hidden : NodeId → Bool} (hid : id ∈ all) (hn : start.node? id = some node)
    (hopen : hidden id = start.pending id)
    (hsources : ∀ source, final.Reads id source → hidden source = false) :
    (Infer.inferNode registry id).run (final.hide hidden) =
      .ok (start.pending id) (final.hide fun other => hidden other && decide (other ≠ id)) := by
  have hbefore : (final.hide hidden).node? id = some node := by
    rw [node?_hide, hopen, ← hn, h.node?_start id, decide_eq_true hid, Bool.and_true]
  refine (Infer.run_inferNode_eq_ok_iff (h.coherent.hide hidden) hbefore).mpr ?_
  cases hpending : start.pending id with
  | false =>
    rw [pending_eq hn, Bool.not_eq_false'] at hpending
    refine .inl ⟨hpending, rfl, hide_congr fun other own _ => ?_⟩
    by_cases hsame : other = id
    · subst hsame
      simp [hopen, pending_eq hn, hpending]
    · simp [hsame]
  | true =>
    obtain ⟨inputs, outputs, hreceives, hcomputed, hnode⟩ := h.computed id node hid hn hpending
    have hforgotten : node = (node.inform 0 outputs).forget := by
      have hsame := h.node?_start id
      rw [hn, hnode, hpending, decide_eq_true hid] at hsame
      exact Option.some.inj hsame
    have hinfos := Node.infos_inform hcomputed.length_eq
    refine .inr ⟨by rw [pending_eq hn] at hpending; simpa using hpending,
      hforgotten ▸ Node.isBlank_forget _, rfl, inputs, outputs, ?_, hcomputed, ?_⟩
    · refine hreceives.congr fun index _ => known?_congr (inputSource?_hide id index)
        fun source hsource => ?_
      rw [outputInfo?_hide, hsources source.node ⟨index, source, hsource, rfl⟩]
      rfl
    · exact (inform_hide hnode (hopen.trans hpending) hinfos).symm

/-- Visits that put sources first find out the solution, node by node. -/
theorem run_mapM (horder : start.SourcesFirst done order)
    (hall : ∀ id ∈ order, id ∈ all ∧ (start.node? id).isSome = true) :
    (order.mapM (Infer.inferNode registry)).run
        (final.hide fun id => start.pending id && decide (id ∉ done)) =
      .ok (order.map start.pending)
        (final.hide fun id => start.pending id && decide (id ∉ done ++ order)) := by
  induction order generalizing done with
  | nil =>
    rw [List.append_nil]
    rfl
  | cons id rest ih =>
    obtain ⟨hid, hsources, hrest⟩ := horder
    obtain ⟨hmem, hsome⟩ := hall id (by simp)
    obtain ⟨node, hn⟩ := Option.isSome_iff_exists.mp hsome
    have hvisit : (Infer.inferNode registry id).run
        (final.hide fun other => start.pending other && decide (other ∉ done)) =
          .ok (start.pending id) (final.hide fun other =>
            (start.pending other && decide (other ∉ done)) && decide (other ≠ id)) :=
      h.run_inferNode hmem hn (by simp [hid]) fun source hreads => by
        simp [hsources source (h.reads_iff.mp hreads)]
    have hstep : (fun other =>
        (start.pending other && decide (other ∉ done)) && decide (other ≠ id)) =
        fun other => start.pending other && decide (other ∉ done ++ [id]) := by
      funext other
      simp [Bool.and_assoc]
    rw [hstep] at hvisit
    have hlater := ih hrest fun other hother => hall other (List.mem_cons_of_mem id hother)
    rw [List.append_assoc] at hlater
    rw [List.mapM_cons]
    exact run_bind_eq_ok.mpr ⟨_, _, hvisit, run_bind_eq_ok.mpr ⟨_, _, hlater, rfl⟩⟩

variable (hall : start.IsOrder all)
include hall

/-- A solution for the whole graph is found out in any order. -/
theorem run_of_isOrder (horder : start.IsOrder order) :
    (order.mapM (Infer.inferNode registry)).run start = .ok (order.map start.pending) final := by
  have hrun := h.run_mapM horder.1 fun id hid =>
    ⟨(hall.2 id).mpr ((horder.2 id).mp hid), (horder.2 id).mp hid⟩
  have hbefore : (final.hide fun id => start.pending id && decide (id ∉ [])) = start := by
    refine Eq.trans (hide_congr fun id node hn => ?_) h.hidden
    have hmem : id ∈ all := (hall.2 id).mpr (by rw [h.node?_start id, hn]; rfl)
    simp [hmem]
  have hafter : (final.hide fun id => start.pending id && decide (id ∉ [] ++ order)) = final :=
    hide_eq_self fun id node hn => by
      have hmem : id ∈ order := (horder.2 id).mpr (by rw [h.node?_start id, hn]; rfl)
      simp [hmem, Node.forgetIf]
  rwa [hbefore, hafter] at hrun

/-- A node of the solution is as it was and was not open, or was informed. -/
theorem node_final (hn : final.node? id = some node) :
    (start.pending id = false ∧ start.node? id = some node) ∨
      ∃ before inputs outputs, start.node? id = some before ∧ start.pending id = true ∧
        final.Receives id before.inputs.length inputs ∧
          before.ComputedBy registry inputs outputs ∧ node = before.inform 0 outputs := by
  have hsame := h.node?_start id
  rw [hn, Option.map_some] at hsame
  cases hpending : start.pending id with
  | false =>
    rw [hpending] at hsame
    exact .inl ⟨rfl, hsame⟩
  | true =>
    have hmem : id ∈ all := (hall.2 id).mpr (by rw [hsame]; rfl)
    obtain ⟨inputs, outputs, hreceives, hcomputed, hnode⟩ := h.computed id _ hmem hsame hpending
    rw [hn, Option.some.injEq] at hnode
    exact .inr ⟨_, inputs, outputs, hsame, rfl, hreceives, hcomputed, hnode⟩

/-- Something is said about every output. -/
theorem isSome_info (hn : final.node? id = some node) {port : OutputPort}
    (hport : port ∈ node.outputs) : port.info.isSome = true := by
  rcases h.node_final hall hn with ⟨hclosed, hbefore⟩ |
    ⟨before, inputs, outputs, _, _, _, hcomputed, rfl⟩
  · rw [pending_eq hbefore, Bool.not_eq_false', Infer.isAnnotated, Bool.and_eq_true] at hclosed
    exact List.all_eq_true.mp hclosed.2 port hport
  · obtain ⟨info, _, hinfo⟩ := Node.exists_info_of_mem_inform hcomputed.length_eq hport
    rw [hinfo]
    rfl

omit hall in
/-- What was said is said still. -/
theorem outputInfo?_of_some {port : PortRef} {info : TensorInfo}
    (hinfo : start.outputInfo? port = some info) : final.outputInfo? port = some info := by
  rw [← h.hidden, outputInfo?_hide] at hinfo
  split at hinfo
  · cases hinfo
  · exact hinfo

/-- Another visit of a node adds nothing. It counts as an inference if the node has no outputs. -/
theorem run_again (hn : final.node? id = some node) :
    (Infer.inferNode registry id).run final = .ok node.outputs.isEmpty final := by
  refine (Infer.run_inferNode_eq_ok_iff h.coherent hn).mpr ?_
  by_cases hnil : node.outputs = []
  · have hannotated : Infer.isAnnotated node = false := by rw [Infer.isAnnotated, hnil]; rfl
    have hblank : node.IsBlank := fun port hport => by
      rw [hnil] at hport
      cases hport
    rcases h.node_final hall hn with ⟨hclosed, hbefore⟩ |
      ⟨before, inputs, outputs, _, _, hreceives, hcomputed, rfl⟩
    · rw [pending_eq hbefore, hannotated] at hclosed
      cases hclosed
    · have hports : before.outputs = [] := by
        rw [← List.length_eq_zero_iff, ← Node.length_outputs_inform before 0 outputs, hnil,
          List.length_nil]
      have houtputs : outputs = [] := by
        rw [← List.length_eq_zero_iff, hcomputed.length_eq, hports, List.length_nil]
      subst houtputs
      exact .inr ⟨hannotated, hblank, by rw [hnil]; rfl, inputs, [], hreceives, hcomputed,
        (modifyNode_eq_self fun _ _ => rfl).symm⟩
  · have hannotated : Infer.isAnnotated node = true := by
      rw [Infer.isAnnotated, Bool.and_eq_true, List.all_eq_true]
      exact ⟨by simpa using hnil, fun port hport => h.isSome_info hall hn hport⟩
    exact .inl ⟨hannotated, by simpa using hnil, rfl⟩

end Visited

end Graph

/-! ### Whole graphs -/

namespace Infer

open OpGraph.Graph

variable {registry : InferRegistry} {graph start final : Graph} {stats : InferStats}

/-- To count on from node to node is to visit all of them and to count the answers. -/
theorem inferAll_eq_mapM (registry : InferRegistry) (order : List NodeId) (stats : InferStats) :
    inferAll registry order stats = do
      let answers ← order.mapM (inferNode registry)
      return ⟨stats.inferred + answers.count true, stats.skipped + answers.count false⟩ := by
  induction order generalizing stats with
  | nil => rfl
  | cons id rest ih =>
    rw [inferAll, List.mapM_cons, bind_assoc]
    refine congrArg _ (funext fun inferred => ?_)
    cases inferred with
    | true => simp [ih, Nat.add_assoc, Nat.add_comm 1]
    | false => simp [ih, Nat.add_assoc, Nat.add_comm 1]

/-- Inference of the whole graph visits its nodes in the listed order. -/
theorem run_inferGraph_eq_ok_iff : (inferGraph registry).run graph = .ok stats final ↔
    ∃ order answers, graph.topologicalOrder = .ok order ∧
      (order.mapM (inferNode registry)).run graph = .ok answers final ∧
        stats = ⟨answers.count true, answers.count false⟩ := by
  unfold inferGraph
  rw [run_check_bind_eq_ok]
  refine exists_congr fun order => ?_
  rw [inferAll_eq_mapM, run_bind_eq_ok]
  constructor
  · rintro ⟨horder, answers, middle, hvisits, hpure⟩
    cases hpure
    exact ⟨answers, horder, hvisits, by simp⟩
  · rintro ⟨answers, horder, hvisits, rfl⟩
    exact ⟨horder, answers, final, hvisits, by simp⟩

/-- Visits that leave the graph alone can be made one after another. -/
theorem run_mapM_of_unchanged {answer : NodeId → Bool} {order : List NodeId}
    (h : ∀ id ∈ order, (inferNode registry id).run graph = .ok (answer id) graph) :
    (order.mapM (inferNode registry)).run graph = .ok (order.map answer) graph := by
  induction order with
  | nil => rfl
  | cons id rest ih =>
    rw [List.mapM_cons]
    exact run_bind_eq_ok.mpr ⟨_, _, h id (by simp), run_bind_eq_ok.mpr
      ⟨_, _, ih fun other hother => h other (List.mem_cons_of_mem id hother), rfl⟩⟩

/-- Successful visits in an order leave a solution behind. -/
theorem visited_of_run_mapM {order : List NodeId} {answers : List Bool} (h : start.Coherent)
    (horder : start.IsOrder order)
    (hrun : (order.mapM (inferNode registry)).run start = .ok answers final) :
    Visited registry start order final :=
  (Visited.none h).of_run_mapM horder.1 (fun _ hid => absurd hid List.not_mem_nil)
    (fun id hid => (horder.2 id).mp hid) hrun

/-- So does an inference of the whole graph, which counts every node once. -/
theorem visited_of_run_inferGraph (h : start.Coherent)
    (hrun : (inferGraph registry).run start = .ok stats final) :
    ∃ order, start.IsOrder order ∧ Visited registry start order final ∧
      stats.inferred + stats.skipped = start.nodes.size := by
  obtain ⟨order, answers, hlisted, hvisits, rfl⟩ := run_inferGraph_eq_ok_iff.mp hrun
  have horder := h.isOrder_of_topologicalOrder hlisted
  have hvisited := visited_of_run_mapM h horder hvisits
  refine ⟨order, horder, hvisited, ?_⟩
  have hsame := hvisited.run_of_isOrder horder horder
  rw [hvisits] at hsame
  cases hsame
  have hlength : order.length = start.nodes.keys.length := horder.perm.length_eq
  dsimp only
  rw [List.count_true_add_count_false, List.length_map, hlength, OrderedMap.keys, List.length_map]
  rfl

/-- A solution is what an inference of the whole graph leaves behind. -/
theorem run_inferGraph_of_visited {order : List NodeId} (h : start.Coherent)
    (horder : start.IsOrder order) (hvisited : Visited registry start order final) :
    ∃ stats, (inferGraph registry).run start = .ok stats final := by
  obtain ⟨listed, hlisted⟩ := h.exists_order horder.acyclic
  have hvisits := hvisited.run_of_isOrder horder (h.isOrder_of_topologicalOrder hlisted)
  exact ⟨_, run_inferGraph_eq_ok_iff.mpr ⟨listed, _, hlisted, hvisits, rfl⟩⟩

/-- A visit of all nodes of a solution adds nothing and counts the nodes without outputs. -/
theorem run_inferGraph_again {order : List NodeId} (horder : start.IsOrder order)
    (hvisited : Visited registry start order final) :
    ∃ again, (inferGraph registry).run final = .ok again final ∧
      again.inferred = final.nodes.values.countP fun node => node.outputs.isEmpty := by
  have hcoherent := hvisited.coherent
  obtain ⟨listed, hlisted⟩ := hcoherent.exists_order (horder.acyclic.congr hvisited.inputSource?)
  have hlistedOrder := hcoherent.isOrder_of_topologicalOrder hlisted
  have hvisits : (listed.mapM (inferNode registry)).run final = .ok
      (listed.map fun id => (final.node? id).any fun node => node.outputs.isEmpty) final :=
    run_mapM_of_unchanged fun id hid => by
      obtain ⟨node, hn⟩ := Option.isSome_iff_exists.mp ((hlistedOrder.2 id).mp hid)
      rw [hn, Option.any_some]
      exact hvisited.run_again horder hn
  refine ⟨_, run_inferGraph_eq_ok_iff.mpr ⟨listed, _, hlisted, hvisits, rfl⟩, ?_⟩
  have hentries :
      final.nodes.keys.map (fun id => (final.node? id).any fun node => node.outputs.isEmpty) =
        final.nodes.values.map fun node => node.outputs.isEmpty := by
    rw [OrderedMap.keys, OrderedMap.values, List.map_map, List.map_map]
    apply List.map_congr_left
    intro entry hentry
    have hvalue : final.node? entry.1 = some entry.2 :=
      (final.nodes.get?_eq_some_iff entry.1 entry.2).mpr hentry
    simp [hvalue]
  dsimp only
  rw [(hlistedOrder.perm.map _).count_eq, hentries, List.count_eq_countP, List.countP_map]
  exact List.countP_congr fun _ _ => by simp

end Infer

/-! ### Settled graphs -/

namespace Graph

variable {graph result : Graph} {order : List NodeId} {stats : InferStats}

/-- A successful inference of a graph of which nothing was known settles it and does nothing else.
-/
theorem Coherent.settled_of_run_inferGraph (h : graph.Coherent)
    (hblank : ∀ id node, graph.node? id = some node → node.IsBlank)
    (hpooling : ∀ id bare, graph.bare? id = some bare → bare.opType = "Pooling" → bare.outputs ≠ [])
    (hrun : (Infer.inferGraph .standard).run graph = .ok stats result) :
    result.Settled ∧ (result.hide fun _ => true) = graph := by
  obtain ⟨order, horder, hvisited, _⟩ := Infer.visited_of_run_inferGraph h hrun
  have hopen : ∀ id node, graph.node? id = some node → graph.pending id = true := by
    intro id node hn
    rw [pending_eq hn, (hblank id node hn).isAnnotated]
    rfl
  have hhidden : (result.hide fun _ => true) = graph := by
    refine Eq.trans (hide_congr fun id node hn => ?_) hvisited.hidden
    have hbefore := hvisited.node?_start id
    rw [hn, Option.map_some] at hbefore
    have hmem : id ∈ order := (horder.2 id).mpr (by rw [hbefore]; rfl)
    rw [hopen id _ hbefore, decide_eq_true hmem]
    rfl
  refine ⟨⟨hvisited.coherent, horder.acyclic.congr hvisited.inputSource?, ?_, ?_⟩, hhidden⟩
  · intro id bare hbare
    obtain ⟨node, hn, _⟩ := Option.map_eq_some_iff.mp hbare
    rcases hvisited.node_final horder hn with ⟨hclosed, hbefore⟩ |
      ⟨before, inputs, outputs, _, _, hreceives, hcomputed, rfl⟩
    · rw [hopen id node hbefore] at hclosed
      cases hclosed
    · exact settledAt_of_inform hn hreceives hcomputed bare hbare
  · intro id bare hbare htype hnil
    obtain ⟨node, hn, rfl⟩ := Option.map_eq_some_iff.mp hbare
    refine hpooling id node.forget.bare ?_ htype ?_
    · rw [bare?, ← hhidden, node?_hide, hn]
      rfl
    · have hlength := congrArg List.length hnil
      simp only [Node.bare, List.length_map, List.length_nil] at hlength
      simpa [Node.bare, Node.forget] using hlength

/-- A node of a settled graph that counts as open though it is not hidden has no outputs. -/
theorem Settled.outputs_eq_nil {id : NodeId} {node : Node} (h : graph.Settled)
    (hn : graph.node? id = some node) (hopen : Infer.isAnnotated node = false) :
    node.outputs = [] := by
  obtain ⟨_, outputs, _, _, hinfo⟩ := h.inferred id node.bare (bare?_of_node? hn)
  by_contra hnil
  rw [Node.isAnnotated_of_infos hnil (by simpa [Node.bare, Function.comp_def] using hinfo)] at hopen
  cases hopen

/-- A settled graph is the solution for whatever is hidden of it. -/
theorem Settled.visited (h : graph.Settled) (hidden : NodeId → Bool)
    (horder : (graph.hide hidden).IsOrder order) :
    Visited .standard (graph.hide hidden) order graph := by
  -- What is open and not hidden has no outputs, so nothing is hidden if it is.
  have hvisible : ∀ id node, graph.node? id = some node → (graph.hide hidden).pending id = true →
      hidden id = false → node.outputs = [] := fun id node hn hopen hid => by
    rw [pending_eq (node?_hide_of_some hn), hid, Bool.not_eq_true'] at hopen
    exact h.outputs_eq_nil hn hopen
  refine ⟨h.coherent, hide_congr fun id node hn => ?_, fun id node _ hn hopen => ?_⟩
  · have hmem : id ∈ order := (horder.2 id).mpr (by rw [node?_hide_of_some hn]; rfl)
    rw [decide_eq_true hmem, Bool.and_true]
    cases hid : hidden id with
    | true =>
      have hopen : Infer.isAnnotated (node.forgetIf true) = false := node.isBlank_forget.isAnnotated
      rw [pending_eq (node?_hide_of_some hn), hid, hopen]
      rfl
    | false =>
      cases hopen : (graph.hide hidden).pending id with
      | false => rfl
      | true =>
        have hblank : node.IsBlank := fun port hport => by
          rw [hvisible id node hn hopen hid] at hport
          cases hport
        rw [hblank.forgetIf, hblank.forgetIf]
  · rw [node?_hide] at hn
    obtain ⟨own, hown, rfl⟩ := Option.map_eq_some_iff.mp hn
    obtain ⟨inputs, outputs, hreceives, hinfers, hinfo⟩ :=
      h.inferred id own.bare (bare?_of_node? hown)
    have hsaid : own.outputs.map (·.info) = outputs.map some := by
      simpa [Node.bare, Function.comp_def] using hinfo
    refine ⟨inputs, outputs, ?_, hinfers.congr ?_ ?_ ?_, ?_⟩
    · cases hidden id <;> simpa [Node.forgetIf, Node.forget, Node.bare] using hreceives
    · cases hidden id <;> rfl
    · cases hidden id <;> rfl
    · cases hidden id <;> simp [Node.forgetIf, Node.bare]
    · cases hid : hidden id with
      | true => exact hown.trans (congrArg some (own.inform_forget hsaid).symm)
      | false =>
        have hnil := hvisible id own hown hopen hid
        have houtputs : outputs = [] := by simpa [hnil] using hsaid.symm
        rw [houtputs]
        exact hown

/-- Whatever is hidden of a settled graph inference finds out again. -/
theorem Settled.run_inferGraph (h : graph.Settled) (hidden : NodeId → Bool) :
    ∃ stats, (Infer.inferGraph .standard).run (graph.hide hidden) = .ok stats graph := by
  have hcoherent := h.coherent.hide hidden
  obtain ⟨order, hlisted⟩ :=
    hcoherent.exists_order (h.acyclic.congr fun _ _ => inputSource?_hide _ _)
  have horder := hcoherent.isOrder_of_topologicalOrder hlisted
  exact Infer.run_inferGraph_of_visited hcoherent horder (h.visited hidden horder)

end Graph

end OpGraph
