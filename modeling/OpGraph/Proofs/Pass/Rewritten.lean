import OpGraph.Proofs.Edit.Changes
import OpGraph.Proofs.Pass.OutputMarker
import OpGraph.Proofs.Pass.Run

/-!
# What a standard pass does to a graph

A standard pass rewrites the one node of its match. That node disappears or gets a type for which
no standard pass looks. Other nodes keep everything but their name and are fed at no other ports
than before, and new nodes are graph outputs and constants.
-/

namespace OpGraph

open Edit

namespace Graph

variable {start graph result : Graph} {id other : NodeId} {own : Node} {opType : String} {count : Nat}

/-- What is left of a graph when a standard pass has rewritten a node. -/
structure Rewritten (graph : Graph) (id : NodeId) (result : Graph) : Prop where
  /-- The records agree. -/
  coherent : result.Coherent
  /-- Another node is new or was there before with another name at most, and nothing feeds it where
  nothing fed it before. -/
  others : ∀ other now, other ≠ id → result.bare? other = some now →
    (now.opType = "Result" ∨ now.opType = "Const") ∨
      ∃ bare, graph.bare? other = some bare ∧ now = { bare with name := now.name } ∧
        ∀ index, (result.inputSource? other index).isSome = true →
          (graph.inputSource? other index).isSome = true
  /-- The node has a canonical type. -/
  own : ∀ now, result.bare? id = some now →
    now.opType ∈ ["Identity", "MaxPool", "AvgPool", "Gather"]
  /-- A maximum pooling delivers the positions besides the maxima. -/
  maxima : ∀ now, result.bare? id = some now → now.opType = "MaxPool" →
    ∃ bare, graph.bare? id = some bare ∧ bare.opType = "Pooling" ∧
      (bare.outputs ≠ [] → 2 ≤ now.outputs.length)

/-! ### Growth around a node -/

/-- The graph has grown around a node, which is another one now. The other nodes from the start
are as they were, and every new node is a graph output or a constant. -/
structure Grown (start : Graph) (id : NodeId) (own : Node) (graph : Graph) : Prop where
  /-- The records agree. -/
  coherent : graph.Coherent
  /-- Numbers go up. -/
  nextNode : start.nextNode ≤ graph.nextNode
  /-- What the node is now. -/
  own : graph.bare? id = some own
  /-- Other nodes from the start stay. -/
  bare : ∀ other, other ≠ id → other.index < start.nextNode → graph.bare? other = start.bare? other
  /-- Other nodes from the start are fed as before. -/
  feed : ∀ other, other ≠ id → other.index < start.nextNode → ∀ index,
    graph.inputSource? other index = start.inputSource? other index
  /-- New nodes are graph outputs and constants. -/
  added : ∀ other now, other ≠ id → start.nextNode ≤ other.index → graph.bare? other = some now →
    now.opType = "Result" ∨ now.opType = "Const"

/-- A node that exists has a number below the next one. -/
theorem Registered.lt_nextNode_of_bare? (h : graph.Registered) (hbare : graph.bare? id = some own) :
    id.index < graph.nextNode := by
  obtain ⟨node, hn, _⟩ := Option.map_eq_some_iff.mp hbare
  exact h.lt_nextNode hn

namespace Grown

theorem refl (h : graph.Coherent) (hbare : graph.bare? id = some own) : graph.Grown id own graph where
  coherent := h
  nextNode := Nat.le_refl _
  own := hbare
  bare _ _ _ := rfl
  feed _ _ _ _ := rfl
  added _ _ _ hnew hnow := absurd (h.registered.lt_nextNode_of_bare? hnow) (Nat.not_lt.mpr hnew)

variable (h : start.Grown id own graph)
include h

/-- The next number is not that of the node. -/
theorem ne_next : id ≠ ⟨graph.nextNode⟩ := by
  intro heq
  have hlt := h.coherent.registered.lt_nextNode_of_bare? h.own
  rw [heq] at hlt
  exact Nat.lt_irrefl _ hlt

/-- The next number is not that of a node from the start. -/
theorem lt_ne_next (hother : other.index < start.nextNode) : other ≠ ⟨graph.nextNode⟩ := by
  intro heq
  rw [heq] at hother
  exact absurd h.nextNode (Nat.not_le.mpr hother)

/-- A graph output or a constant is appended. -/
theorem insertNode {desc : NodeDesc} (htype : desc.opType = "Result" ∨ desc.opType = "Const") :
    start.Grown id own (graph.insertNode desc) where
  coherent := h.coherent.change (.insertNode desc)
  nextNode := Nat.le_succ_of_le h.nextNode
  own := by rw [bare?_insertNode, if_neg h.ne_next, h.own]
  bare other hother hold := by
    rw [bare?_insertNode, if_neg (h.lt_ne_next hold), h.bare other hother hold]
  feed other hother hold index := by
    rw [h.coherent.inputSource?_insertNode, h.feed other hother hold]
  added other now hother hnew hnow := by
    rw [bare?_insertNode] at hnow
    split at hnow
    · cases hnow
      exact htype
    · exact h.added other now hother hnew hnow

/-- A connection is made to the node or to a new one. -/
theorem insertConnection {source destination : PortRef}
    (hcheck : graph.checkConnect source destination = .ok ())
    (hnear : destination.node = id ∨ start.nextNode ≤ destination.node.index) :
    start.Grown id own (graph.insertConnection source destination) where
  coherent := h.coherent.change (.insertConnection hcheck)
  nextNode := h.nextNode
  own := by rw [bare?_insertConnection, h.own]
  bare other hother hold := by rw [bare?_insertConnection, h.bare other hother hold]
  feed other hother hold index := by
    rw [h.coherent.inputSource?_insertConnection hcheck, if_neg, h.feed other hother hold]
    rintro ⟨rfl, _⟩
    rcases hnear with hown | hnew
    · exact hother hown
    · exact absurd hnew (Nat.not_le.mpr hold)
  added other now hother hnew hnow := by
    rw [bare?_insertConnection] at hnow
    exact h.added other now hother hnew hnow

/-- The node changes without any change of its connections. -/
theorem modifyOwn {f g : Node → Node} (hf : Node.Neutral f)
    (hg : ∀ node, (f node).bare = g node.bare) : start.Grown id (g own) (graph.modifyNode id f) where
  coherent := h.coherent.change (.modifyNode id hf)
  nextNode := h.nextNode
  own := by
    rw [bare?_modifyNode hg, if_pos rfl, h.own]
    rfl
  bare other hother hold := by rw [bare?_modifyNode hg, if_neg hother, h.bare other hother hold]
  feed other hother hold index := by rw [inputSource?_modifyNode hf, h.feed other hother hold]
  added other now hother hnew hnow := by
    rw [bare?_modifyNode hg, if_neg hother] at hnow
    exact h.added other now hother hnew hnow

/-- A new node changes without any change of its type and its connections. -/
theorem modifyNew {new : NodeId} (hne : new ≠ id) (hnew : start.nextNode ≤ new.index)
    {f g : Node → Node} (hf : Node.Neutral f) (hg : ∀ node, (f node).bare = g node.bare)
    (htype : ∀ node, (g node).opType = node.opType) : start.Grown id own (graph.modifyNode new f) where
  coherent := h.coherent.change (.modifyNode new hf)
  nextNode := h.nextNode
  own := by rw [bare?_modifyNode hg, if_neg hne.symm, h.own]
  bare other hother hold := by
    rw [bare?_modifyNode hg, if_neg, h.bare other hother hold]
    rintro rfl
    exact absurd hnew (Nat.not_le.mpr hold)
  feed other hother hold index := by rw [inputSource?_modifyNode hf, h.feed other hother hold]
  added other now hother hlater hnow := by
    rw [bare?_modifyNode hg] at hnow
    split at hnow
    · obtain ⟨before, hbefore, rfl⟩ := Option.map_eq_some_iff.mp hnow
      rw [htype]
      exact h.added other before hother hlater hbefore
    · exact h.added other now hother hlater hnow

/-- A graph that has grown around a node of a canonical type was rewritten there. -/
theorem rewritten (htype : own.opType ∈ ["Identity", "MaxPool", "AvgPool", "Gather"])
    (hmaxima : own.opType = "MaxPool" → ∃ bare, start.bare? id = some bare ∧ bare.opType = "Pooling" ∧
      (bare.outputs ≠ [] → 2 ≤ own.outputs.length)) : start.Rewritten id graph where
  coherent := h.coherent
  others other now hother hnow := by
    by_cases hold : other.index < start.nextNode
    · rw [h.bare other hother hold] at hnow
      refine .inr ⟨now, hnow, rfl, fun index hfed => ?_⟩
      rwa [h.feed other hother hold] at hfed
    · exact .inl (h.added other now hother (Nat.not_lt.mp hold) hnow)
  own now hnow := by
    rw [h.own, Option.some.injEq] at hnow
    exact hnow ▸ htype
  maxima now hnow hmax := by
    rw [h.own, Option.some.injEq] at hnow
    subst hnow
    exact hmaxima hmax

end Grown

/-- The graph has grown around a node that has this type and at least so many outputs. -/
def GrownTo (start : Graph) (id : NodeId) (opType : String) (count : Nat) (graph : Graph) : Prop :=
  ∃ own, start.Grown id own graph ∧ own.opType = opType ∧ count ≤ own.outputs.length

end Graph

/-! ### Edits around a node -/

variable {start graph result : Graph} {id : NodeId} {opType : String} {count : Nat}

theorem ensures_grownTo_setOpType (new : String) :
    Ensures (start.GrownTo id opType count) (setOpType id new) fun _ => start.GrownTo id new count := by
  rintro graph _ result ⟨own, h, _, hcount⟩ hrun
  obtain ⟨_, rfl⟩ := run_setOpType_eq_ok.mp hrun
  exact ⟨_, h.modifyOwn (.setOpType new) (g := ({ · with opType := new })) (fun _ => rfl), rfl, hcount⟩

theorem ensures_grownTo_removeAttributes (names : List String) :
    Ensures (start.GrownTo id opType count) (removeAttributes id names)
      fun _ => start.GrownTo id opType count := by
  rintro graph _ result ⟨own, h, htype, hcount⟩ hrun
  obtain ⟨_, rfl⟩ := run_removeAttributes_eq_ok.mp hrun
  exact ⟨_, h.modifyOwn (.attributes (·.eraseAll names))
    (g := fun node => { node with attributes := node.attributes.eraseAll names }) (fun _ => rfl),
    htype, hcount⟩

theorem ensures_grownTo_addInputPort :
    Ensures (start.GrownTo id opType count) (addInputPort id)
      fun _ => start.GrownTo id opType count := by
  rintro graph _ result ⟨own, h, htype, hcount⟩ hrun
  obtain ⟨_, _, _, rfl⟩ := run_addInputPort_eq_ok.mp hrun
  exact ⟨_, h.modifyOwn .withInput bare_withInput, htype, hcount⟩

theorem ensures_grownTo_addOutputPort :
    Ensures (start.GrownTo id opType count) (addOutputPort id)
      fun _ => start.GrownTo id opType (count + 1) := by
  rintro graph _ result ⟨own, h, htype, hcount⟩ hrun
  obtain ⟨_, _, _, rfl⟩ := run_addOutputPort_eq_ok.mp hrun
  refine ⟨_, h.modifyOwn .withOutput bare_withOutput, htype, ?_⟩
  simp only [withOutput, List.length_append, List.length_singleton]
  omega

theorem ensures_grownTo_annotate (index : Nat) (info : TensorInfo) :
    Ensures (start.GrownTo id opType count) (annotate (.output id index) info)
      fun _ => start.GrownTo id opType count := by
  rintro graph _ result ⟨own, h, htype, hcount⟩ hrun
  obtain ⟨_, _, _, rfl⟩ := run_annotate_eq_ok.mp hrun
  refine ⟨_, h.modifyOwn (.annotate index info) (g := fun node =>
    { node with outputs := node.outputs.modify index ({ · with info := some info }) })
    (fun node => node.bare_annotate index info), htype, ?_⟩
  rwa [List.length_modify]

/-- A terminal leaves everything but itself alone. -/
theorem ensures_grownTo_addTerminal (node : Node) (index : Nat) :
    Ensures (start.GrownTo id opType count) (addTerminal id node index)
      fun _ => start.GrownTo id opType count := by
  rintro graph _ result ⟨own, h, htype, hcount⟩ hrun
  obtain ⟨_, _, hadd, hrun⟩ := run_bind_eq_ok.mp hrun
  cases hadd
  obtain ⟨_, _, hconnect, hpure⟩ := run_bind_eq_ok.mp hrun
  cases hpure
  obtain ⟨_, hconnect⟩ := run_discard_eq_ok.mp hconnect
  obtain ⟨hcheck, _, rfl⟩ := run_connect_eq_ok.mp hconnect
  exact ⟨own, (h.insertNode (.inl rfl)).insertConnection hcheck (.inr h.nextNode), htype, hcount⟩

theorem ensures_grownTo_terminate :
    Ensures (start.GrownTo id opType count) (terminate id) fun _ => start.GrownTo id opType count :=
  ensures_bind (ensures_check fun _ _ h _ => h) fun _ =>
    ensures_bind (ensures_check fun _ _ h _ => h) fun node =>
      ensures_bind (ensures_forM fun _ _ => ensures_check fun _ _ h _ => h) fun _ =>
        ensures_mapM fun index _ => ensures_grownTo_addTerminal node index

/-- A new port for the positions is one output more. -/
theorem ensures_grownTo_addIndicesPort :
    Ensures (start.GrownTo id opType count) (addIndicesPort id)
      fun _ => start.GrownTo id opType (count + 1) := by
  refine ensures_get_bind fun graph h => ?_
  refine ensures_bind (Q := fun _ => start.GrownTo id opType (count + 1))
    (fun _ value result heq hrun => ensures_grownTo_addOutputPort graph value result h (heq ▸ hrun))
    fun indices => ?_
  cases graph.outputInfo? (.output id 0) with
  | none => exact ensures_pure fun _ h => h
  | some info => exact ensures_grownTo_annotate indices info

/-- A new graph output or constant stands apart from the node. -/
theorem ensures_grownTo_addNode {desc : NodeDesc}
    (hdesc : desc.opType = "Result" ∨ desc.opType = "Const") :
    Ensures (start.GrownTo id opType count) (addNode desc) fun new graph =>
      start.GrownTo id opType count graph ∧ new ≠ id ∧ start.nextNode ≤ new.index := by
  rintro graph _ result ⟨own, h, htype, hcount⟩ hrun
  cases hrun
  exact ⟨⟨own, h.insertNode hdesc, htype, hcount⟩, h.ne_next.symm, h.nextNode⟩

theorem ensures_grownTo_annotateNew {new : NodeId} (index : Nat) (info : TensorInfo) :
    Ensures (fun graph => start.GrownTo id opType count graph ∧ new ≠ id ∧ start.nextNode ≤ new.index)
      (annotate (.output new index) info) fun _ => start.GrownTo id opType count := by
  rintro graph _ result ⟨⟨own, h, htype, hcount⟩, hne, hnew⟩ hrun
  obtain ⟨_, _, _, rfl⟩ := run_annotate_eq_ok.mp hrun
  exact ⟨own, h.modifyNew hne hnew (.annotate index info) (g := fun node =>
    { node with outputs := node.outputs.modify index ({ · with info := some info }) })
    (fun node => node.bare_annotate index info) (fun _ => rfl), htype, hcount⟩

theorem ensures_grownTo_connect (source : PortRef) (index : Nat) :
    Ensures (start.GrownTo id opType count) (connect source (.input id index))
      fun _ => start.GrownTo id opType count := by
  rintro graph _ result ⟨own, h, htype, hcount⟩ hrun
  obtain ⟨hcheck, _, rfl⟩ := run_connect_eq_ok.mp hrun
  exact ⟨own, h.insertConnection hcheck (.inl rfl), htype, hcount⟩

/-! ### Passes -/

variable {found : Match} {node : Node} {value : Unit}

/-- A node that exists is the start of growth around it. -/
theorem grownTo_refl (h : graph.Coherent) (hn : graph.node? id = some node) :
    graph.GrownTo id node.opType node.outputs.length graph :=
  ⟨node.bare, .refl h (Graph.bare?_of_node? hn), rfl, by simp [Node.bare]⟩

/-- A match of poolings of one method binds a generic pooling. -/
theorem generic_of_stillMatches {method : String}
    (hmatches : (poolingPattern method).stillMatches graph found = true)
    (hid : found.require "pool" = .ok id) :
    ∃ node, graph.node? id = some node ∧ node.opType = "Pooling" := by
  obtain ⟨node, hn, haccepts⟩ := Pattern.accepted_of_stillMatches
    (Pattern.isSingle_constrain (Pattern.isSingle_single "pool" "Pooling") _) hmatches hid
  exact ⟨node, hn, Pattern.opType_of_accepts rfl haccepts⟩

/-- The edits that make a generic pooling one of a method. -/
theorem ensures_grownTo_setMethod (method : String) (names : List String) :
    Ensures (start.GrownTo id opType count) (do
        setOpType id method
        removeAttributes id names
        discard (terminate id))
      fun _ => start.GrownTo id method count :=
  ensures_bind (ensures_grownTo_setOpType method) fun _ =>
    ensures_bind (ensures_grownTo_removeAttributes names) fun _ =>
      ensures_discard ensures_grownTo_terminate

theorem rewritten_of_run_canonizeMaxPool (h : graph.Coherent)
    (hmatches : Pass.maxPool.pattern.stillMatches graph found = true)
    (hrun : (canonizeMaxPool found).run graph = .ok value result) :
    ∃ label id, found.require label = .ok id ∧ graph.Rewritten id result := by
  obtain ⟨id, hid, hrun⟩ := run_ofExcept_bind_eq_ok.mp hrun
  obtain ⟨node, hn, hrun⟩ := run_check_bind_eq_ok.mp hrun
  rw [Graph.requireNode_eq_ok_iff] at hn
  obtain ⟨_, hsame, htype⟩ := generic_of_stillMatches hmatches hid
  cases hn.symm.trans hsame
  have hstart := grownTo_refl h hn
  have hgrown : ∃ count, (node.outputs.length ≠ 0 → 2 ≤ count) ∧
      graph.GrownTo id "MaxPool" count result := by
    by_cases hports : node.outputs.length < 2
    · rw [if_pos hports] at hrun
      refine ⟨node.outputs.length + 1, fun _ => by omega, ?_⟩
      exact ensures_bind ensures_grownTo_addIndicesPort
        (fun _ => ensures_grownTo_setMethod "MaxPool" _) graph value result hstart hrun
    · rw [if_neg hports] at hrun
      exact ⟨node.outputs.length, fun _ => Nat.not_lt.mp hports,
        ensures_grownTo_setMethod "MaxPool" _ graph value result hstart hrun⟩
  obtain ⟨count, hcount, own, hgrown, hown, hle⟩ := hgrown
  refine ⟨"pool", id, hid, hgrown.rewritten (by simp [hown]) fun _ =>
    ⟨node.bare, Graph.bare?_of_node? hn, htype, fun hne => ?_⟩⟩
  have hnonempty : node.outputs.length ≠ 0 := by
    simpa [Node.bare] using hne
  exact Nat.le_trans (hcount hnonempty) hle

theorem rewritten_of_run_canonizeAvgPool (h : graph.Coherent)
    (hmatches : Pass.avgPool.pattern.stillMatches graph found = true)
    (hrun : (canonizeAvgPool found).run graph = .ok value result) :
    ∃ label id, found.require label = .ok id ∧ graph.Rewritten id result := by
  obtain ⟨id, hid, hrun⟩ := run_ofExcept_bind_eq_ok.mp hrun
  obtain ⟨node, hn, _⟩ := generic_of_stillMatches hmatches hid
  obtain ⟨own, hgrown, hown, _⟩ :=
    ensures_grownTo_setMethod "AvgPool" _ graph value result (grownTo_refl h hn) hrun
  exact ⟨"pool", id, hid, hgrown.rewritten (by simp [hown]) fun hmax =>
    absurd (hown.symm.trans hmax) (by decide)⟩

theorem rewritten_of_run_canonizeGather (h : graph.Coherent)
    (hrun : (canonizeGather found).run graph = .ok value result) :
    ∃ label id, found.require label = .ok id ∧ graph.Rewritten id result := by
  obtain ⟨id, hid, hrun⟩ := run_ofExcept_bind_eq_ok.mp hrun
  obtain ⟨node, hn, hrun⟩ := run_check_bind_eq_ok.mp hrun
  rw [Graph.requireNode_eq_ok_iff] at hn
  obtain ⟨axis, _, hrun⟩ := run_ofExcept_bind_eq_ok.mp hrun
  obtain ⟨_, _, hrun⟩ := run_check_bind_eq_ok.mp hrun
  have hdesc : (axisDesc node axis).opType = "Result" ∨ (axisDesc node axis).opType = "Const" := .inr rfl
  obtain ⟨own, hgrown, hown, _⟩ :=
    ensures_bind (ensures_grownTo_addNode hdesc) (fun const =>
      ensures_bind (ensures_grownTo_annotateNew 0 (.ofValue [axis])) fun _ =>
        ensures_bind (ensures_forM fun _ _ => ensures_discard ensures_grownTo_addInputPort) fun _ =>
          ensures_bind (ensures_discard (ensures_grownTo_connect (.output const 0) 2)) fun _ =>
            ensures_bind (ensures_grownTo_removeAttributes ["axis"]) fun _ =>
              ensures_grownTo_setOpType "Gather")
      graph value result (grownTo_refl h hn) hrun
  exact ⟨"gather", id, hid, hgrown.rewritten (by simp [hown]) fun hmax =>
    absurd (hown.symm.trans hmax) (by decide)⟩

/-- A bypassed marker is gone, and what read it reads its source. -/
theorem Bypassed.rewritten {name : String} {source : PortRef} (hresult : result.Coherent)
    (h : Bypassed graph id name source result) : graph.Rewritten id result := by
  have hgone : ∀ now, result.bare? id ≠ some now := fun now hnow => h.ne_of_bare? hnow rfl
  refine ⟨hresult, fun other now hother hnow => .inr ?_, fun now hnow => absurd hnow (hgone now),
    fun now hnow => absurd hnow (hgone now)⟩
  obtain ⟨bare, hbare, hsame⟩ := h.exists_before hnow
  refine ⟨bare, hbare, hsame, fun index hfed => ?_⟩
  rwa [h.inputSource other hother index, Option.isSome_map] at hfed

theorem rewritten_of_run_resolveMarker (h : graph.Coherent)
    (hrun : (resolveMarker found).run graph = .ok value result) :
    ∃ label id, found.require label = .ok id ∧ graph.Rewritten id result := by
  have hresult : result.Coherent := h.changes
    ((changes_resolveMarker found h).ensures graph value result .refl hrun)
  obtain ⟨id, marker, source, producer, hid, hn, _, _, hresolved⟩ := resolved_of_run h hrun
  refine ⟨"fake", id, hid, ?_⟩
  cases hresolved with
  | bypassed _ hbypassed => exact hbypassed.rewritten hresult
  | identity _ hchanged =>
    obtain ⟨own, hgrown, hown, _⟩ := ensures_grownTo_setOpType "Identity" graph () result
      (grownTo_refl h hn) (run_setOpType_eq_ok.mpr ⟨by rw [hn]; rfl, hchanged⟩)
    exact hgrown.rewritten (by simp [hown]) fun hmax => absurd (hown.symm.trans hmax) (by decide)

/-- A standard pass rewrites the node that a match binds. -/
theorem Pass.Standard.rewritten_of_run {pass : Pass} (hpass : pass.Standard) (h : graph.Coherent)
    (hmatches : pass.pattern.stillMatches graph found = true)
    (hrun : (pass.apply found).run graph = .ok value result) :
    ∃ label id, found.require label = .ok id ∧ graph.Rewritten id result := by
  obtain ⟨builtIn, hmem, hpattern, happly⟩ := hpass.exists_mem
  rw [hpattern] at hmatches
  rw [happly] at hrun
  simp only [PassRegistry.standard, List.mem_cons, List.not_mem_nil, or_false] at hmem
  rcases hmem with rfl | rfl | rfl | rfl
  · exact rewritten_of_run_resolveMarker h hrun
  · exact rewritten_of_run_canonizeMaxPool h hmatches hrun
  · exact rewritten_of_run_canonizeAvgPool h hmatches hrun
  · exact rewritten_of_run_canonizeGather h hrun

end OpGraph
