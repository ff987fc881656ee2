import OpGraph.Proofs.Edit.Upheld
import OpGraph.Proofs.Reachable

/-!
# What is known is set once

Inference, passes and every other operation write down what is known about an output port only
where nothing is known yet, and none of them takes a port away or moves it. One operation is meant
to overwrite: the replacement of an annotation. Whatever else happens, with or without success, a
port that carries an annotation carries the same one at the same position as long as its node
exists.
-/

namespace OpGraph

/-- The output port exists, and this is known about it. -/
def Node.Knows (index : Nat) (info : TensorInfo) (node : Node) : Prop :=
  node.outputs[index]?.bind (·.info) = some info

/-- New ports come after the others, and an annotation goes to a port of which nothing is known. -/
theorem Node.persistent_knows (index : Nat) (info : TensorInfo) : Persistent (Knows index info) where
  withInput _ h := h
  withOutput bare h := by
    obtain ⟨port, hport, _⟩ := Option.bind_eq_some_iff.mp h
    rw [Knows, Edit.withOutput, List.getElem?_append_left (List.getElem?_eq_some_iff.mp hport).1]
    exact h
  annotate bare position new h hfree := by
    have hindex : position ≠ index := by
      rintro rfl
      rw [h] at hfree
      cases hfree
    obtain ⟨port, hport, hinfo⟩ := Option.bind_eq_some_iff.mp h
    simp only [Knows, List.getElem?_modify, if_neg hindex, hport]
    exact hinfo
  attributes _ _ h := h

namespace Operation

/-- The operation replaces what is known about a port. -/
def Reannotates : Operation → Prop
  | reannotate _ _ => True
  | _ => False

variable {operation : Operation} {Q : Node → Prop} {id : NodeId}

open Edit in
/-- Every operation that does not replace annotations upholds a condition on a node that can stand
additions and says nothing of name and type. -/
theorem upholds_perform (hoperation : ¬operation.Reannotates) (hQ : Node.Persistent Q)
    (hname : ∀ bare name, Q bare → Q { bare with name })
    (htype : ∀ bare opType, Q bare → Q { bare with opType }) :
    Keeps (Graph.Upholds Q id) operation.perform := by
  have hadd : Additions (Graph.Upholds Q id) := additions_upholds hQ
  have hset : ∀ target opType, Keeps (Graph.Upholds Q id) (Edit.setOpType target opType) :=
    fun _ opType => upholds_setOpType opType (.inr fun bare => htype bare opType)
  have hpass : ∀ pass : Pass, pass.Standard → ∀ verify,
      Keeps (Graph.Upholds Q id) (pass.run verify) := by
    intro pass hstandard verify
    refine keeps_run_pass verify fun found => ?_
    obtain ⟨builtIn, hmem, _, happly⟩ := hstandard.exists_mem
    rw [happly]
    simp only [PassRegistry.standard, List.mem_cons, List.not_mem_nil, or_false] at hmem
    rcases hmem with rfl | rfl | rfl | rfl
    · exact upholds_resolveMarker hname fun marker _ => hset marker _
    · exact hadd.canonizeMaxPool fun target _ => hset target _
    · exact hadd.canonizeAvgPool fun target _ => hset target _
    · exact hadd.canonizeGather fun target _ => hset target _
  cases operation with
  | addNode desc => exact keeps_discard (upholds_addNode desc)
  | addInputPort target => exact keeps_discard (hadd.addInputPort target)
  | addOutputPort target => exact keeps_discard (hadd.addOutputPort target)
  | renameNode target name => exact upholds_renameNode name (.inr fun bare => hname bare name)
  | removeNode target mode => exact keeps_discard (upholds_removeNode mode)
  | connect source destination => exact keeps_discard upholds_connect
  | disconnect connection => exact keeps_discard upholds_disconnect
  | disconnectInput target position =>
    exact keeps_discard (keeps_disconnectInput fun _ => upholds_disconnect)
  | rewireDestination connection port => exact upholds_rewireDestination
  | rewireSource connection port => exact upholds_rewireSource
  | annotate port new => exact hadd.annotate port new
  | reannotate port new => exact absurd trivial hoperation
  | setOpType target opType => exact hset target opType
  | editAttributes target f =>
    exact fun _ h => h.modifyNode (f := fun node => { node with attributes := f node.attributes })
      (g := fun node => { node with attributes := f node.attributes }) (fun _ => rfl)
      fun bare _ _ => hQ.attributes bare _
  | inferNode registry target => exact keeps_discard (hadd.inferNode registry)
  | inferGraph registry => exact keeps_discard (hadd.inferGraph registry)
  | terminatePorts target ports => exact keeps_discard (hadd.terminatePorts ports)
  | terminate target => exact keeps_discard hadd.terminate
  | runPass pass standard verify => exact keeps_discard (hpass pass standard verify)
  | runPasses passes standard verify =>
    refine keeps_discard (keeps_bind (keeps_ofExcept _) fun order =>
      keeps_foldlM (fun pass hmem stats => ?_) _)
    obtain ⟨name, _, hname⟩ := List.mem_filterMap.mp hmem
    exact keeps_bind (hpass pass (standard pass (List.mem_of_find?_eq_some hname)) verify)
      fun _ => keeps_pure _

end Operation

namespace Graph

variable {graph : Graph} {operations : List Operation} {id : NodeId} {index : Nat} {info : TensorInfo}

/-- Operations that replace no annotations leave what is known, in any number. -/
theorem Upholds.afterAll (h : graph.Upholds (Node.Knows index info) id)
    (hoperations : ∀ operation ∈ operations, ¬operation.Reannotates) :
    (graph.afterAll operations).Upholds (Node.Knows index info) id := by
  induction operations generalizing graph with
  | nil => exact h
  | cons operation rest ih =>
    refine ih ?_ fun other hother => hoperations other (List.mem_cons_of_mem operation hother)
    exact Operation.upholds_perform (hoperations operation (by simp))
      (Node.persistent_knows index info) (fun _ _ h => h) (fun _ _ h => h) graph h

/-- Annotations are set once: if an output port of a reachable graph carries one, any operations
follow that are no replacements of annotations, and the node still exists then, the port exists at
the same position and carries the same annotation. -/
theorem info_kept_of_afterAll (h : graph.Reachable)
    (hoperations : ∀ operation ∈ operations, ¬operation.Reannotates) {port : OutputPort}
    (hport : graph.outputPort? id index = some port) (hinfo : port.info = some info)
    (hnode : ((graph.afterAll operations).node? id).isSome = true) :
    ∃ kept, (graph.afterAll operations).outputPort? id index = some kept ∧
      kept.index = index ∧ kept.info = some info := by
  obtain ⟨node, hnode⟩ := Option.isSome_iff_exists.mp hnode
  obtain ⟨old, hold, hfound⟩ := Option.bind_eq_some_iff.mp hport
  have hknows : graph.Upholds (Node.Knows index info) id :=
    h.coherent.registered.upholds hold (by simp [Node.Knows, Node.bare, hfound, hinfo])
  have hcoherent := h.coherent.changes ((history_afterAll graph operations).changes h.coherent)
  have hknown := (hknows.afterAll hoperations).holds node.bare (bare?_of_node? hnode)
  simp only [Node.Knows, Node.bare, List.getElem?_map] at hknown
  obtain ⟨bare, hbare, hbareInfo⟩ := Option.bind_eq_some_iff.mp hknown
  obtain ⟨kept, hkept, rfl⟩ := Option.map_eq_some_iff.mp hbare
  refine ⟨kept, ?_, (hcoherent.registered.indexed id node hnode).2 index kept hkept, hbareInfo⟩
  rw [outputPort?, hnode]
  exact hkept

/-- A pooling of which the output is known. -/
def knownPooling : Graph :=
  empty.afterAll
    [.addNode
        { opType := "Pooling", attributes := .ofList [("pool_method", .str "max")], inputs := 1
          outputs := 1 },
      .annotate (.output ⟨0⟩ 0) (.ofShape [4])]

/-- A second annotation is refused, and the pass for maximum poolings adds a port and changes the
type, but the annotation stays. -/
theorem info_kept_of_afterAll_knownPooling :
    let later := knownPooling.afterAll
      [.annotate (.output ⟨0⟩ 0) (.ofShape [5]), .runPass .maxPool (by simp [Pass.Standard,
        PassRegistry.standard, Pass.maxPool]) true]
    ((later.node? ⟨0⟩).map fun node => (node.opType, node.outputs.length)) = some ("MaxPool", 2) ∧
      ∃ kept, later.outputPort? ⟨0⟩ 0 = some kept ∧ kept.index = 0 ∧
        kept.info = some (.ofShape [4]) := by
  have hannotated : knownPooling.outputPort? ⟨0⟩ 0 = some ⟨0, [], some (.ofShape [4])⟩ := by
    decide +kernel
  refine ⟨by decide +kernel, info_kept_of_afterAll ⟨.empty, .empty, history_afterAll _ _⟩ ?_
    hannotated rfl (by decide +kernel)⟩
  intro operation hoperation
  simp only [List.mem_cons, List.not_mem_nil, or_false] at hoperation
  rcases hoperation with rfl | rfl <;> exact not_false

end Graph

end OpGraph
