import OpGraph.Proofs.Edit.Terminal
import OpGraph.Proofs.Pass.Cleared
import OpGraph.Proofs.Pass.PoolingNode

/-!
# How standard passes fail

After a rewrite the match of a standard pass holds no more, so a turn fails only if the rewrite
does. A pooling can always be made canonical. A gather can be made canonical unless something feeds
its third input already.
-/

namespace OpGraph

open Edit

variable {start graph result : Graph} {pass : Pass} {found : Match} {id const : NodeId}
  {opType : String} {count : Nat} {error : GraphError} {E : GraphError → Prop}

/-! ### Turns -/

/-- A turn of a standard pass fails only with a match that holds and a rewrite that fails. -/
theorem Pass.Standard.run_apply_eq_error {verify : Bool} {stats : PassStats} (hpass : pass.Standard)
    (h : graph.Coherent) (hrun : (pass.applyTo verify stats found).run graph = .error error result) :
    pass.pattern.stillMatches graph found = true ∧
      (pass.apply found).run graph = .error error result := by
  unfold Pass.applyTo at hrun
  rcases run_bind_eq_error.mp hrun with hget | ⟨_, _, hget, hrest⟩
  · cases hget
  cases hget
  cases hmatches : pass.pattern.stillMatches graph found with
  | false =>
    rw [if_pos (by rw [hmatches]; rfl)] at hrest
    cases hrest
  | true =>
    rw [if_neg (by rw [hmatches]; decide)] at hrest
    rcases run_bind_eq_error.mp hrest with happly | ⟨_, middle, happly, hrest⟩
    · exact ⟨rfl, happly⟩
    · obtain ⟨label, id, hid, hrewritten⟩ := hpass.rewritten_of_run h hmatches happly
      rcases run_bind_eq_error.mp hrest with hget | ⟨_, _, hget, hrest⟩
      · cases hget
      cases hget
      rw [hrewritten.stillMatches_eq_false hpass hid, Bool.and_false] at hrest
      cases hrest

/-- Standard passes have led from one graph to the other. -/
structure Graph.Descends (start graph : Graph) : Prop where
  /-- The records agree. -/
  coherent : graph.Coherent
  /-- There are no new nodes for which standard passes look. -/
  narrows : start.Narrows graph

/-- Standard passes lead on. -/
theorem Pass.Standard.ensures_descends (hpass : pass.Standard) (verify : Bool) :
    Ensures start.Descends (pass.run verify) fun _ => start.Descends :=
  fun _ _ _ h hrun => by
    obtain ⟨hresult, hnarrows, _⟩ := hpass.cleared_of_run h.coherent hrun
    exact ⟨hresult, h.narrows.trans hnarrows⟩

/-- A standard pass fails as the rewrites of the nodes that it looks for do. -/
theorem Pass.Standard.failsOnly_run (hpass : pass.Standard) {node : NodePattern}
    (hsingle : pass.pattern.IsSingle node) (verify : Bool)
    (hrewrite : ∀ id bound, node.accepts bound = true →
      FailsOnly (fun graph => start.Descends graph ∧ graph.node? id = some bound)
        (pass.apply ⟨[(node.label, id)]⟩) E) : FailsOnly start.Descends (pass.run verify) E := by
  refine failsOnly_get_bind fun first hfirst => FailsOnly.mono
    (failsOnly_foldlM (P := start.Descends) (fun found hmem stats => ?_) (fun found _ stats => ?_) _)
    (fun _ heq => heq ▸ hfirst) fun _ h => h
  · obtain ⟨id, _, rfl, _⟩ := (Pattern.mem_findAll_of_isSingle hsingle).mp hmem
    intro graph error result h hrun
    obtain ⟨hmatches, happly⟩ := hpass.run_apply_eq_error h.coherent hrun
    obtain ⟨_, _, bound, hsame, hbound, haccepts⟩ :=
      (Pattern.stillMatches_of_isSingle hsingle).mp hmatches
    cases hsame
    exact hrewrite id bound haccepts graph error result ⟨h, hbound⟩ happly
  · intro graph next result h hrun
    obtain ⟨hresult, hnarrows, _⟩ := hpass.cleared_of_turn h.coherent hrun
    exact ⟨hresult, h.narrows.trans hnarrows⟩

/-! ### Poolings -/

/-- A graph that has grown around a node has the node. -/
theorem Graph.GrownTo.coherent_and_isSome (h : start.GrownTo id opType count graph) :
    graph.Coherent ∧ (graph.node? id).isSome = true := by
  obtain ⟨own, hgrown, _⟩ := h
  obtain ⟨node, hn, _⟩ := Option.map_eq_some_iff.mp hgrown.own
  exact ⟨hgrown.coherent, by rw [hn]; rfl⟩

/-- The port for the positions is new, so everything can be said of it. -/
theorem failsOnly_addIndicesPort :
    FailsOnly (fun graph => (graph.node? id).isSome = true) (addIndicesPort id) E :=
  failsOnly_of_exists fun _ hexists => by
    obtain ⟨_, hn⟩ := Option.isSome_iff_exists.mp hexists
    exact ⟨(), _, run_addIndicesPort hn⟩

/-- A node that exists can be made a pooling of a method. -/
theorem failsOnly_setMethod (method : String) (names : List String) :
    FailsOnly (start.GrownTo id opType count) (do
        setOpType id method
        removeAttributes id names
        discard (terminate id)) E :=
  failsOnly_bind ((failsOnly_setOpType method).mono (fun _ h => h.coherent_and_isSome.2) fun _ h => h)
    (ensures_grownTo_setOpType method) fun _ =>
    failsOnly_bind ((failsOnly_removeAttributes names).mono (fun _ h => h.coherent_and_isSome.2) fun _ h => h)
      (ensures_grownTo_removeAttributes names) fun _ =>
      failsOnly_discard (failsOnly_terminate.mono (fun _ h => h.coherent_and_isSome) fun _ h => h)

theorem failsOnly_canonizeMaxPool :
    FailsOnly (fun graph => graph.Coherent ∧ (graph.node? id).isSome = true)
      (canonizeMaxPool ⟨[("pool", id)]⟩) E := by
  refine failsOnly_ofExcept_bind rfl (failsOnly_requireNode_bind (fun _ h => h.2) fun node => ?_)
  rintro graph error result ⟨⟨h, _⟩, hn⟩ hrun
  have hstart := grownTo_refl h hn
  by_cases hports : node.outputs.length < 2
  · rw [if_pos hports] at hrun
    exact failsOnly_bind (failsOnly_addIndicesPort.mono (fun _ h => h.coherent_and_isSome.2) fun _ h => h)
      ensures_grownTo_addIndicesPort (fun _ => failsOnly_setMethod "MaxPool" _)
      graph error result hstart hrun
  · rw [if_neg hports] at hrun
    exact failsOnly_setMethod "MaxPool" _ graph error result hstart hrun

theorem failsOnly_canonizeAvgPool :
    FailsOnly (fun graph => graph.Coherent ∧ (graph.node? id).isSome = true)
      (canonizeAvgPool ⟨[("pool", id)]⟩) E := by
  refine failsOnly_ofExcept_bind rfl ?_
  rintro graph error result ⟨h, hexists⟩ hrun
  obtain ⟨node, hn⟩ := Option.isSome_iff_exists.mp hexists
  exact failsOnly_setMethod "AvgPool" _ graph error result (grownTo_refl h hn) hrun

/-! ### Gathers -/

namespace Graph

/-- A gather has at least so many input ports and waits for an axis at the third one, and the
constant that is to deliver the axis is there. -/
structure AwaitsAxis (graph : Graph) (id const : NodeId) (count : Nat) : Prop where
  /-- The constant has an output port. -/
  delivers : graph.HasPort (.output const 0)
  /-- The gather has input ports. -/
  receives : ∃ node, graph.node? id = some node ∧ count ≤ node.inputs.length
  /-- Nothing feeds the third one. -/
  free : graph.inputConnection? id 2 = none

namespace AwaitsAxis

variable (h : graph.AwaitsAxis id const count)
include h

/-- A change of a node that takes no port away leaves the gather waiting. -/
theorem modifyNode {other : NodeId} {f : Node → Node} (hf : Node.Neutral f)
    (hports : ∀ node direction, node.portCount direction ≤ (f node).portCount direction) :
    (graph.modifyNode other f).AwaitsAxis id const count := by
  have hnode : ∀ wanted node, graph.node? wanted = some node →
      ∃ now, (graph.modifyNode other f).node? wanted = some now ∧
        ∀ direction, node.portCount direction ≤ now.portCount direction := fun wanted node hn => by
    rw [node?_modifyNode, hn]
    split
    · exact ⟨f node, rfl, hports node⟩
    · exact ⟨node, rfl, fun _ => Nat.le_refl _⟩
  refine ⟨?_, ?_, ?_⟩
  · obtain ⟨node, hn, hlt⟩ := h.delivers
    obtain ⟨now, hnow, hle⟩ := hnode _ node hn
    exact ⟨now, hnow, Nat.lt_of_lt_of_le hlt (hle _)⟩
  · obtain ⟨node, hn, hcount⟩ := h.receives
    obtain ⟨now, hnow, hle⟩ := hnode _ node hn
    exact ⟨now, hnow, Nat.le_trans hcount (hle .input)⟩
  · rw [graph.inputConnection?_modifyNode hf.feed, h.free]

theorem isSome_node? : (graph.node? id).isSome = true := by
  obtain ⟨node, hn, _⟩ := h.receives
  rw [hn]
  rfl

/-- A gather with three inputs can be connected to the constant. -/
theorem checkConnect (hcount : 3 ≤ count) :
    graph.checkConnect (.output const 0) (.input id 2) = .ok () := by
  obtain ⟨node, hn, hle⟩ := h.receives
  exact (checkConnect_eq_ok_iff _ _ _).mpr ⟨rfl, rfl, h.delivers,
    ⟨node, hn, Nat.lt_of_lt_of_le hcount hle⟩, h.free⟩

end AwaitsAxis

/-- A new constant is ready to deliver the axis, and nothing was said of it yet. -/
theorem Coherent.awaitsAxis_insertNode (h : graph.Coherent) {node : Node}
    (hn : graph.node? id = some node) (hfree : graph.inputConnection? id 2 = none) (axis : Int) :
    (graph.insertNode (axisDesc node axis)).AwaitsAxis id ⟨graph.nextNode⟩ node.inputs.length ∧
      (graph.insertNode (axisDesc node axis)).outputInfo? (.output ⟨graph.nextNode⟩ 0) = none := by
  have hnew := graph.node?_insertNode (axisDesc node axis) ⟨graph.nextNode⟩
  rw [if_pos rfl] at hnew
  have hother : id ≠ ⟨graph.nextNode⟩ := by
    rintro rfl
    rw [h.registered.node?_next] at hn
    cases hn
  refine ⟨⟨⟨_, hnew, Nat.zero_lt_one⟩, ⟨node, ?_, Nat.le_refl _⟩, ?_⟩, ?_⟩
  · rw [graph.node?_insertNode, if_neg hother, hn]
  · rw [graph.inputConnection?_insertNode _ h.registered.node?_next, hfree]
  · rw [outputInfo?_output (bare?_of_node? hnew)]
    rfl

end Graph

theorem ensures_awaitsAxis_annotate {port : PortRef} {info : TensorInfo} :
    Ensures (·.AwaitsAxis id const count) (annotate port info)
      fun _ graph => graph.AwaitsAxis id const count := fun _ _ _ h hrun => by
  obtain ⟨_, _, _, rfl⟩ := run_annotate_eq_ok.mp hrun
  refine h.modifyNode (.annotate port.index info) fun node direction => Nat.le_of_eq ?_
  cases direction
  · rfl
  · exact (List.length_modify ..).symm

/-- One more input port. -/
theorem ensures_awaitsAxis_addInputPort :
    Ensures (·.AwaitsAxis id const count) (discard (addInputPort id))
      fun _ graph => graph.AwaitsAxis id const (count + 1) :=
  ensures_discard fun graph _ _ h hrun => by
    obtain ⟨_, _, _, rfl⟩ := run_addInputPort_eq_ok.mp hrun
    have hlonger : (graph.modifyNode id withInput).AwaitsAxis id const count :=
      h.modifyNode .withInput fun node direction => by
        cases direction
        · simp [withInput, Node.portCount]
        · exact Nat.le_refl _
    obtain ⟨node, hn, hcount⟩ := h.receives
    refine ⟨hlonger.delivers, ⟨withInput node, ?_, ?_⟩, hlonger.free⟩
    · rw [Graph.node?_modifyNode, if_pos rfl, hn]
      rfl
    · simpa [withInput] using hcount

/-- As many more input ports as the loop has rounds. -/
theorem ensures_awaitsAxis_addInputPorts {α : Type} (items : List α) :
    Ensures (·.AwaitsAxis id const count) (items.forM fun _ => discard (addInputPort id))
      fun _ graph => graph.AwaitsAxis id const (count + items.length) := by
  induction items generalizing count with
  | nil => exact ensures_pure fun _ h => h
  | cons head tail ih =>
    rw [List.length_cons, Nat.add_comm tail.length, ← Nat.add_assoc]
    exact ensures_bind ensures_awaitsAxis_addInputPort fun _ => ih

theorem failsOnly_addInputPorts {α : Type} (items : List α) :
    FailsOnly (·.AwaitsAxis id const count) (items.forM fun _ => discard (addInputPort id)) E := by
  induction items generalizing count with
  | nil => exact failsOnly_pure _
  | cons head tail ih =>
    exact failsOnly_bind (failsOnly_discard (failsOnly_addInputPort.mono
      (fun _ h => h.isSome_node?) fun _ h => h)) ensures_awaitsAxis_addInputPort fun _ => ih

/-- A gather that waits for its axis can be connected to the constant and made canonical. -/
theorem failsOnly_readAxis {rounds : Nat} {info : TensorInfo} (hports : 3 ≤ count + rounds) :
    FailsOnly (fun graph => graph.AwaitsAxis id const count ∧
      graph.outputInfo? (.output const 0) = none) (do
        annotate (.output const 0) info
        (List.range rounds).forM fun _ => discard (addInputPort id)
        discard (connect (.output const 0) (.input id 2))
        removeAttributes id ["axis"]
        setOpType id "Gather") E := by
  have hthere : Ensures (fun graph => (graph.node? id).isSome = true) (removeAttributes id ["axis"])
      fun _ graph => (graph.node? id).isSome = true := fun graph _ result hn hrun => by
    obtain ⟨_, rfl⟩ := run_removeAttributes_eq_ok.mp hrun
    rwa [Graph.node?_modifyNode, if_pos rfl, Option.isSome_map]
  refine failsOnly_bind ((failsOnly_annotate info).mono (fun _ h => ⟨rfl, h.1.delivers, h.2⟩) fun _ h => h)
    (fun graph value result h => ensures_awaitsAxis_annotate graph value result h.1) fun _ => ?_
  refine failsOnly_bind (failsOnly_addInputPorts _) (ensures_awaitsAxis_addInputPorts _) fun _ => ?_
  rw [List.length_range]
  refine failsOnly_bind (Q := fun _ graph => (graph.node? id).isSome = true)
    (failsOnly_discard (failsOnly_of_exists fun graph h => ?_)) (ensures_discard ?_) fun _ => ?_
  · exact ⟨_, _, run_connect_eq_ok.mpr ⟨h.checkConnect hports, rfl, rfl⟩⟩
  · intro graph value result h hrun
    obtain ⟨_, _, rfl⟩ := run_connect_eq_ok.mp hrun
    rw [← Graph.isSome_bare?, Graph.bare?_insertConnection, Graph.isSome_bare?]
    exact h.isSome_node?
  · exact failsOnly_bind (failsOnly_removeAttributes _) hthere fun _ => failsOnly_setOpType "Gather"

/-- Whether something feeds the third input of a gather. -/
theorem checkAxisInput_eq_ok_iff :
    checkAxisInput id graph = .ok () ↔ graph.inputConnection? id 2 = none := by
  unfold checkAxisInput
  cases graph.inputConnection? id 2 <;> simp

/-- A gather with an axis can be made canonical unless something feeds its third input. -/
theorem failsOnly_canonizeGather {node : Node} {axis : Int} {fed : Prop}
    (hread : gatherAxis node = .ok axis) :
    FailsOnly (fun graph => graph.Coherent ∧ graph.node? id = some node ∧
        ((graph.inputSource? id 2).isSome = true → fed))
      (canonizeGather ⟨[("gather", id)]⟩)
      fun error => fed ∧ ∃ label, error = .portOccupied label none := by
  refine failsOnly_ofExcept_bind rfl
    (failsOnly_requireNode_bind (fun _ h => by rw [h.2.1]; rfl) fun own => ?_)
  rintro graph error result ⟨⟨h, hn, hfed⟩, hown⟩ hrun
  cases hn.symm.trans hown
  rw [hread] at hrun
  rcases run_check_bind_eq_error.mp hrun with ⟨hoccupied, _⟩ | ⟨_, hfree, hrun⟩
  · unfold checkAxisInput at hoccupied
    cases hslot : graph.inputConnection? id 2 with
    | none =>
      rw [hslot] at hoccupied
      cases hoccupied
    | some feed =>
      rw [hslot] at hoccupied
      cases hoccupied
      exact ⟨hfed (h.isSome_inputSource? hslot), _, rfl⟩
  · obtain ⟨hawaits, hblank⟩ := h.awaitsAxis_insertNode hn (checkAxisInput_eq_ok_iff.mp hfree) axis
    rcases run_bind_eq_error.mp hrun with hadd | ⟨_, _, hadd, hrun⟩
    · cases hadd
    · cases hadd
      exact (failsOnly_readAxis (E := fun _ => False) (by omega) _ error result
        ⟨hawaits, hblank⟩ hrun).elim

/-! ### Runs -/

/-- The error says that a gather could not get its axis, since something feeds its third input. -/
def Graph.AxisOccupied (start : Graph) (error : GraphError) : Prop :=
  ∃ id node label, start.node? id = some node ∧ node.opType = "AttributedGather" ∧
    (start.inputSource? id 2).isSome = true ∧ error = .portOccupied label none

/-- The pass for gathers fails only with a gather whose third input was fed from the start, if the
gathers had axes. -/
theorem failsOnly_run_gatherAxis (verify : Bool)
    (haxis : ∀ id bare, start.bare? id = some bare → bare.opType = "AttributedGather" →
      ∃ axis, bare.attributes.get? "axis" = some (.int axis)) :
    FailsOnly start.Descends (Pass.gatherAxis.run verify) start.AxisOccupied := by
  have hstandard : Pass.gatherAxis.Standard :=
    PassRegistry.standard_of_mem (by simp [PassRegistry.standard])
  refine hstandard.failsOnly_run (Pattern.isSingle_single "gather" "AttributedGather") verify
    fun id bound haccepts => ?_
  rintro graph error result ⟨hdescends, hn⟩ hrun
  have htype : bound.opType = "AttributedGather" := Pattern.opType_of_accepts rfl haccepts
  obtain ⟨bare, hbare, hsame, hattributes, hfed⟩ :=
    hdescends.narrows id bound.bare (Graph.bare?_of_node? hn) (by simp [Node.bare, htype, rawTypes])
  have hbefore : bare.opType = "AttributedGather" := hsame.symm.trans htype
  obtain ⟨axis, hown⟩ := haxis id bare hbare hbefore
  change bound.attributes = bare.attributes at hattributes
  rw [← hattributes] at hown
  have hread : gatherAxis bound = .ok axis := by
    unfold gatherAxis
    rw [hown]
  obtain ⟨hoccupied, label, herror⟩ :=
    failsOnly_canonizeGather hread graph error result ⟨hdescends.coherent, hn, hfed 2⟩ hrun
  obtain ⟨node, hnode, rfl⟩ := Option.map_eq_some_iff.mp hbare
  exact ⟨id, node, label, hnode, hbefore, hoccupied, herror⟩

/-- The passes for poolings do not fail. -/
theorem failsOnly_run_pooling (verify : Bool) (hpass : pass = .maxPool ∨ pass = .avgPool) :
    FailsOnly start.Descends (pass.run verify) E := by
  have hexists : ∀ id bound graph, start.Descends graph ∧ graph.node? id = some bound →
      graph.Coherent ∧ (graph.node? id).isSome = true := fun id bound graph h =>
    ⟨h.1.coherent, by rw [h.2]; rfl⟩
  rcases hpass with rfl | rfl
  · have hstandard : Pass.maxPool.Standard :=
      PassRegistry.standard_of_mem (by simp [PassRegistry.standard])
    exact hstandard.failsOnly_run (Pattern.isSingle_constrain (Pattern.isSingle_single "pool" "Pooling") _)
      verify fun id bound _ => failsOnly_canonizeMaxPool.mono (hexists id bound) fun _ h => h
  · have hstandard : Pass.avgPool.Standard :=
      PassRegistry.standard_of_mem (by simp [PassRegistry.standard])
    exact hstandard.failsOnly_run (Pattern.isSingle_constrain (Pattern.isSingle_single "pool" "Pooling") _)
      verify fun id bound _ => failsOnly_canonizeAvgPool.mono (hexists id bound) fun _ h => h

/-- Passes that keep a property, one after another, fail as each of them does. -/
theorem failsOnly_run_passes {P : Graph → Prop} {passes : List Pass} {verify : Bool}
    (hfails : ∀ pass ∈ passes, FailsOnly P (pass.run verify) E)
    (hkeep : ∀ pass ∈ passes, Ensures P (pass.run verify) fun _ => P) (stats : PassStats) :
    FailsOnly P (passes.foldlM (fun (stats : PassStats) (pass : Pass) =>
      return stats ++ (← pass.run verify)) stats) E :=
  failsOnly_foldlM (fun pass hmem _ => failsOnly_bind (hfails pass hmem)
      (fun _ _ _ _ _ => trivial) fun _ => failsOnly_pure _)
    (fun pass hmem _ => ensures_bind (hkeep pass hmem) fun _ => ensures_pure fun _ h => h) stats

end OpGraph
