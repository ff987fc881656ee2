import OpGraph.Proofs.Edit.Outcome
import OpGraph.Proofs.Graph.Bare

/-!
# What each edit does

For every edit: when it succeeds, with which result and on which graph; and what has to be
shown of the change behind it so that the edit keeps a property. No later proof opens the
definition of an edit.
-/

namespace OpGraph.Edit

variable {graph result : Graph} {P : Graph → Prop} {id : NodeId} {connection : ConnectionId}
  {source destination port : PortRef}

theorem run_addNode (desc : NodeDesc) (graph : Graph) :
    (addNode desc).run graph = .ok ⟨graph.nextNode⟩ (graph.insertNode desc) := rfl

/-- A node with one more input port, which nothing feeds. -/
def withInput (node : Node) : Node :=
  { node with inputs := node.inputs ++ [⟨node.inputs.length, none⟩] }

/-- A node with one more output port, which nothing consumes and of which nothing is known. -/
def withOutput (node : Node) : Node :=
  { node with outputs := node.outputs ++ [⟨node.outputs.length, [], none⟩] }

/-- A new input port shows on the bare node. -/
theorem bare_withInput (node : Node) : (withInput node).bare = withInput node.bare := by
  simp [withInput, Node.bare]

/-- A new output port shows on the bare node. -/
theorem bare_withOutput (node : Node) : (withOutput node).bare = withOutput node.bare := by
  simp [withOutput, Node.bare]

/-- Requiring a node that does not exist fails and changes nothing. -/
theorem run_requireNode_of_none (hn : graph.node? id = none) :
    (check (·.requireNode id)).run graph = .error (.nodeNotFound (toString id)) graph := by
  simp [Graph.requireNode, hn]

/-- Requiring a node that exists finds it and changes nothing. -/
theorem run_requireNode_of_some {node : Node} (hn : graph.node? id = some node) :
    (check (·.requireNode id)).run graph = .ok node graph := by
  simp [Graph.requireNode, hn]

/-- An input port can be added to every node that exists. -/
theorem run_addInputPort_eq_ok {index : Nat} :
    (addInputPort id).run graph = .ok index result ↔
      ∃ node, graph.node? id = some node ∧ index = node.inputs.length ∧
        result = graph.modifyNode id withInput := by
  unfold addInputPort
  simp only [run_bind_eq_ok, run_check_eq_ok, Graph.requireNode_eq_ok_iff]
  constructor
  · rintro ⟨node, _, ⟨hn, rfl⟩, _, _, hset, hpure⟩
    cases hset
    cases hpure
    refine ⟨node, hn, rfl, Graph.modifyNode_congr fun own hown => ?_⟩
    rw [hn, Option.some.injEq] at hown
    rw [hown]
    rfl
  · rintro ⟨node, hn, rfl, rfl⟩
    refine ⟨node, graph, ⟨hn, rfl⟩, ⟨⟩, _, rfl, congrArg (EStateM.Result.ok node.inputs.length)
      (Graph.modifyNode_congr fun own hown => ?_)⟩
    rw [hn, Option.some.injEq] at hown
    rw [hown]
    rfl

theorem atomic_addInputPort : Atomic (addInputPort id) :=
  atomic_check_bind fun _ => atomic_modify_bind fun _ _ _ h => by cases h

/-- An output port can be added to every node that exists. -/
theorem run_addOutputPort_eq_ok {index : Nat} :
    (addOutputPort id).run graph = .ok index result ↔
      ∃ node, graph.node? id = some node ∧ index = node.outputs.length ∧
        result = graph.modifyNode id withOutput := by
  unfold addOutputPort
  simp only [run_bind_eq_ok, run_check_eq_ok, Graph.requireNode_eq_ok_iff]
  constructor
  · rintro ⟨node, _, ⟨hn, rfl⟩, _, _, hset, hpure⟩
    cases hset
    cases hpure
    refine ⟨node, hn, rfl, Graph.modifyNode_congr fun own hown => ?_⟩
    rw [hn, Option.some.injEq] at hown
    rw [hown]
    rfl
  · rintro ⟨node, hn, rfl, rfl⟩
    refine ⟨node, graph, ⟨hn, rfl⟩, ⟨⟩, _, rfl, congrArg (EStateM.Result.ok node.outputs.length)
      (Graph.modifyNode_congr fun own hown => ?_)⟩
    rw [hn, Option.some.injEq] at hown
    rw [hown]
    rfl

theorem atomic_addOutputPort : Atomic (addOutputPort id) :=
  atomic_check_bind fun _ => atomic_modify_bind fun _ _ _ h => by cases h

/-- A node can be renamed to its own name and to every free name. -/
theorem run_renameNode_eq_ok {name : String} {value : Unit} :
    (renameNode id name).run graph = .ok value result ↔
      ∃ node, graph.node? id = some node ∧
        ((node.name = name ∧ result = graph) ∨
          (node.name ≠ name ∧ graph.idOf? name = none ∧
            result = graph.rename id node.name name)) := by
  unfold renameNode
  simp only [run_bind_eq_ok, run_check_eq_ok, Graph.requireNode_eq_ok_iff]
  constructor
  · rintro ⟨node, _, ⟨hn, rfl⟩, _, _, hget, hrest⟩
    cases hget
    refine ⟨node, hn, ?_⟩
    by_cases hname : node.name = name
    · rw [if_pos hname] at hrest
      cases hrest
      exact .inl ⟨hname, rfl⟩
    · rw [if_neg hname] at hrest
      cases htaken : graph.names.contains name with
      | true =>
        rw [htaken] at hrest
        cases hrest
      | false =>
        rw [htaken] at hrest
        cases hrest
        exact .inr ⟨hname, (graph.names.contains_eq_false_iff name).mp htaken, rfl⟩
  · rintro ⟨node, hn, hcases⟩
    refine ⟨node, graph, ⟨hn, rfl⟩, graph, graph, rfl, ?_⟩
    rcases hcases with ⟨hname, rfl⟩ | ⟨hname, hfree, rfl⟩
    · rw [if_pos hname]
      rfl
    · rw [if_neg hname, (graph.names.contains_eq_false_iff name).mpr hfree]
      rfl

theorem atomic_renameNode {name : String} : Atomic (renameNode id name) :=
  atomic_check_bind fun _ => atomic_get_bind fun _ =>
    atomic_ite (atomic_pure ()) (atomic_ite (atomic_throw _) fun _ _ _ h => by cases h)

/-- A connection is made exactly when its check passes. -/
theorem run_connect_eq_ok {value : ConnectionId} :
    (connect source destination).run graph = .ok value result ↔
      graph.checkConnect source destination = .ok () ∧ value = ⟨graph.nextConnection⟩ ∧
        result = graph.insertConnection source destination := by
  unfold connect
  simp only [run_bind_eq_ok, run_check_eq_ok]
  constructor
  · rintro ⟨_, _, ⟨hcheck, rfl⟩, _, _, hget, _, _, hset, hpure⟩
    cases hget
    cases hset
    cases hpure
    exact ⟨hcheck, rfl, rfl⟩
  · rintro ⟨hcheck, rfl, rfl⟩
    exact ⟨(), graph, ⟨hcheck, rfl⟩, graph, graph, rfl, ⟨⟩, _, rfl, rfl⟩

theorem atomic_connect : Atomic (connect source destination) :=
  atomic_check_bind fun _ => atomic_get_bind fun _ _ _ _ h => by cases h

/-- Every connection that exists can be removed. -/
theorem run_disconnect_eq_ok {value : Connection} :
    (disconnect connection).run graph = .ok value result ↔
      graph.connection? connection = some value ∧
        result = graph.eraseConnection connection value := by
  unfold disconnect
  simp only [run_bind_eq_ok, run_check_eq_ok, Graph.requireConnection_eq_ok_iff]
  constructor
  · rintro ⟨_, _, ⟨hc, rfl⟩, _, _, hset, hpure⟩
    cases hset
    cases hpure
    exact ⟨hc, rfl⟩
  · rintro ⟨hc, rfl⟩
    exact ⟨value, graph, ⟨hc, rfl⟩, ⟨⟩, _, rfl, rfl⟩

theorem atomic_disconnect : Atomic (disconnect connection) :=
  atomic_check_bind fun _ => atomic_modify_bind fun _ _ _ h => by cases h

theorem keeps_disconnectInput {index : Nat} (h : ∀ connection, Keeps P (disconnect connection)) :
    Keeps P (disconnectInput id index) :=
  keeps_bind (keeps_check _) fun _ => keeps_get_bind fun graph hP => by
    cases graph.inputConnection? id index with
    | none => exact hP
    | some feed =>
      have hloop : Keeps P (disconnect feed >>= fun ends => pure (some (feed, ends))) :=
        keeps_bind (h feed) fun _ => keeps_pure _
      exact hloop graph hP

/-- Removal of connections one after another. -/
def disconnectAll (connections : List ConnectionId) : Edit PUnit :=
  connections.forM fun connection => discard (disconnect connection)

theorem keeps_disconnectAll {connections : List ConnectionId}
    (h : ∀ connection, Keeps P (disconnect connection)) : Keeps P (disconnectAll connections) :=
  keeps_forM fun connection _ => keeps_discard (h connection)

/-- After a removal of several connections exactly these are gone from the table. -/
theorem connection?_of_run_disconnectAll {connections : List ConnectionId} {value : PUnit}
    (hrun : (disconnectAll connections).run graph = .ok value result) (other : ConnectionId) :
    result.connection? other = if other ∈ connections then none else graph.connection? other := by
  induction connections generalizing graph with
  | nil =>
    cases hrun
    simp
  | cons head tail ih =>
    obtain ⟨_, middle, hhead, htail⟩ := run_bind_eq_ok.mp hrun
    obtain ⟨ends, hends⟩ := run_discard_eq_ok.mp hhead
    obtain ⟨_, rfl⟩ := run_disconnect_eq_ok.mp hends
    rw [ih htail, Graph.connection?_eraseConnection]
    by_cases hhead : other = head
    · simp [hhead]
    · simp [hhead]

/-- A node without connections can be removed strictly, and no other node can. -/
theorem run_removeNode_strict_eq_ok {value : Node} :
    (removeNode id .strict).run graph = .ok value result ↔
      graph.node? id = some value ∧ value.connectionIds = [] ∧
        result = graph.eraseNode id value.name := by
  unfold removeNode
  simp only [run_bind_eq_ok, run_check_eq_ok, Graph.requireNode_eq_ok_iff, true_and]
  constructor
  · rintro ⟨node, _, ⟨hn, rfl⟩, hrest⟩
    by_cases hattached : node.connectionIds = []
    · rw [if_neg (by simp [hattached]), hattached] at hrest
      obtain ⟨_, _, hloop, hrest⟩ := run_bind_eq_ok.mp hrest
      cases hloop
      obtain ⟨bare, _, hcheck, hset⟩ := run_bind_eq_ok.mp hrest
      obtain ⟨hbare, rfl⟩ := run_check_eq_ok.mp hcheck
      cases hn.symm.trans (graph.requireNode_eq_ok_iff.mp hbare)
      cases hset
      exact ⟨hn, hattached, rfl⟩
    · rw [if_pos hattached] at hrest
      cases hrest
  · rintro ⟨hn, hattached, rfl⟩
    refine ⟨value, graph, ⟨hn, rfl⟩, ?_⟩
    rw [if_neg (by simp [hattached]), hattached]
    refine run_bind_eq_ok.mpr ⟨⟨⟩, graph, rfl, run_bind_eq_ok.mpr ⟨value, graph, ?_, rfl⟩⟩
    exact run_check_eq_ok.mpr ⟨graph.requireNode_eq_ok_iff.mpr hn, rfl⟩

/-- Removal of a node keeps what the removal of its connections keeps, if the removal of the bare
node keeps it as well. The connections are those that the node lists at the start. -/
theorem keeps_removeNode {mode : RemoveMode} (hdisconnect : ∀ other, Keeps P (disconnect other))
    (herase : ∀ graph middle node bare, P graph → P middle → graph.node? id = some node →
      (disconnectAll node.connectionIds).run graph = .ok ⟨⟩ middle →
      middle.node? id = some bare → P (middle.eraseNode id bare.name)) :
    Keeps P (removeNode id mode) := by
  intro graph hP
  unfold removeNode
  cases hn : graph.node? id with
  | none =>
    rw [after_bind_of_error (run_requireNode_of_none hn)]
    exact hP
  | some node =>
    rw [after_bind_of_ok (run_requireNode_of_some hn)]
    change P (Edit.after (if mode = .strict ∧ node.connectionIds ≠ [] then _ else _) graph)
    by_cases hguard : mode = .strict ∧ node.connectionIds ≠ []
    · rw [if_pos hguard]
      exact hP
    · rw [if_neg hguard]
      change P (Edit.after (disconnectAll node.connectionIds >>= _) graph)
      have hloop : Keeps P (disconnectAll node.connectionIds) := keeps_disconnectAll hdisconnect
      have hmiddle := hloop graph hP
      cases hloop : (disconnectAll node.connectionIds).run graph with
      | error error middle =>
        rw [after_of_run_error hloop] at hmiddle
        rw [after_bind_of_error hloop]
        exact hmiddle
      | ok value middle =>
        rw [after_of_run_ok hloop] at hmiddle
        rw [after_bind_of_ok hloop]
        cases hbare : middle.node? id with
        | none =>
          rw [after_bind_of_error (run_requireNode_of_none hbare)]
          exact hmiddle
        | some bare =>
          rw [after_bind_of_ok (run_requireNode_of_some hbare)]
          exact herase graph middle node bare hP hmiddle hn hloop hbare

/-- A connection can be moved to its own destination and to every existing free input port. -/
theorem run_rewireDestination_eq_ok {value : Unit} :
    (rewireDestination connection port).run graph = .ok value result ↔
      ∃ ends, graph.connection? connection = some ends ∧ port.direction = .input ∧
        graph.HasPort port ∧
          ((port = ends.destination ∧ result = graph) ∨
            (port ≠ ends.destination ∧ graph.inputConnection? port.node port.index = none ∧
              result = graph.moveDestination connection ends.destination port)) := by
  unfold rewireDestination
  simp only [run_bind_eq_ok, run_check_eq_ok, Graph.requireConnection_eq_ok_iff]
  constructor
  · rintro ⟨ends, _, ⟨hc, rfl⟩, _, _, hget, hrest⟩
    cases hget
    cases hdir : port.direction with
    | output =>
      rw [if_pos (by simp [PortRef.isInput, hdir])] at hrest
      cases hrest
    | input =>
      rw [if_neg (by simp [PortRef.isInput, hdir])] at hrest
      obtain ⟨_, _, hcheck, hrest⟩ := run_bind_eq_ok.mp hrest
      obtain ⟨hport, rfl⟩ := run_check_eq_ok.mp hcheck
      refine ⟨ends, hc, rfl, (graph.checkPort_eq_ok_iff port).mp hport, ?_⟩
      by_cases hsame : port = ends.destination
      · rw [if_pos hsame] at hrest
        cases hrest
        exact .inl ⟨hsame, rfl⟩
      · rw [if_neg hsame] at hrest
        obtain ⟨_, _, hcheck, hset⟩ := run_bind_eq_ok.mp hrest
        obtain ⟨hfree, rfl⟩ := run_check_eq_ok.mp hcheck
        cases hset
        exact .inr ⟨hsame, (graph.checkFree_eq_ok_iff port).mp hfree, rfl⟩
  · rintro ⟨ends, hc, hdir, hport, hcases⟩
    refine ⟨ends, graph, ⟨hc, rfl⟩, graph, graph, rfl, ?_⟩
    rw [if_neg (by simp [PortRef.isInput, hdir])]
    refine run_bind_eq_ok.mpr ⟨(), graph, run_check_eq_ok.mpr
      ⟨(graph.checkPort_eq_ok_iff port).mpr hport, rfl⟩, ?_⟩
    rcases hcases with ⟨hsame, rfl⟩ | ⟨hsame, hfree, rfl⟩
    · rw [if_pos hsame]
      rfl
    · rw [if_neg hsame]
      exact run_bind_eq_ok.mpr ⟨(), graph, run_check_eq_ok.mpr
        ⟨(graph.checkFree_eq_ok_iff port).mpr hfree, rfl⟩, rfl⟩

theorem atomic_rewireDestination : Atomic (rewireDestination connection port) :=
  atomic_check_bind fun _ => atomic_get_bind fun _ =>
    atomic_ite (atomic_throw _) (atomic_check_bind fun _ =>
      atomic_ite (atomic_pure ()) (atomic_check_bind fun _ _ _ _ h => by cases h))

/-- A connection can be moved to start at every existing output port. -/
theorem run_rewireSource_eq_ok {value : Unit} :
    (rewireSource connection port).run graph = .ok value result ↔
      ∃ ends, graph.connection? connection = some ends ∧ port.direction = .output ∧
        graph.HasPort port ∧
          result = if port = ends.source then graph
            else graph.moveSource connection ends.source port := by
  unfold rewireSource
  simp only [run_bind_eq_ok, run_check_eq_ok, Graph.requireConnection_eq_ok_iff]
  constructor
  · rintro ⟨ends, _, ⟨hc, rfl⟩, _, _, hget, hrest⟩
    cases hget
    cases hdir : port.direction with
    | input =>
      rw [if_pos (by simp [PortRef.isOutput, hdir])] at hrest
      cases hrest
    | output =>
      rw [if_neg (by simp [PortRef.isOutput, hdir])] at hrest
      obtain ⟨_, _, hcheck, hrest⟩ := run_bind_eq_ok.mp hrest
      obtain ⟨hport, rfl⟩ := run_check_eq_ok.mp hcheck
      refine ⟨ends, hc, rfl, (graph.checkPort_eq_ok_iff port).mp hport, ?_⟩
      by_cases hsame : port = ends.source
      · rw [if_pos hsame] at hrest ⊢
        cases hrest
        rfl
      · rw [if_neg hsame] at hrest ⊢
        cases hrest
        rfl
  · rintro ⟨ends, hc, hdir, hport, rfl⟩
    refine ⟨ends, graph, ⟨hc, rfl⟩, graph, graph, rfl, ?_⟩
    rw [if_neg (by simp [PortRef.isOutput, hdir])]
    refine run_bind_eq_ok.mpr ⟨(), graph, run_check_eq_ok.mpr
      ⟨(graph.checkPort_eq_ok_iff port).mpr hport, rfl⟩, ?_⟩
    by_cases hsame : port = ends.source
    · rw [if_pos hsame, if_pos hsame]
      rfl
    · rw [if_neg hsame, if_neg hsame]
      rfl

theorem atomic_rewireSource : Atomic (rewireSource connection port) :=
  atomic_check_bind fun _ => atomic_get_bind fun _ =>
    atomic_ite (atomic_throw _) (atomic_check_bind fun _ =>
      atomic_ite (atomic_pure ()) fun _ _ _ h => by cases h)

/-- Knowledge about an existing output port can always be replaced. -/
theorem run_reannotate_eq_ok {info : TensorInfo} {value : Unit} :
    (reannotate port info).run graph = .ok value result ↔
      port.direction = .output ∧ graph.HasPort port ∧
        result = graph.modifyOutput port ({ · with info := some info }) := by
  change ((if !port.isOutput then _ else _ : Edit Unit).run graph) = _ ↔ _
  cases hdir : port.direction with
  | input =>
    rw [if_pos (by simp [PortRef.isOutput, hdir])]
    constructor
    · intro h
      cases h
    · rintro ⟨h, _⟩
      cases h
  | output =>
    rw [if_neg (by simp [PortRef.isOutput, hdir])]
    simp only [run_bind_eq_ok, run_check_eq_ok, ← Graph.checkPort_eq_ok_iff, true_and]
    constructor
    · rintro ⟨_, _, ⟨hport, rfl⟩, hset⟩
      cases hset
      exact ⟨hport, rfl⟩
    · rintro ⟨hport, rfl⟩
      exact ⟨(), graph, ⟨hport, rfl⟩, rfl⟩

theorem atomic_reannotate {info : TensorInfo} : Atomic (reannotate port info) :=
  atomic_get_bind fun _ =>
    atomic_ite (atomic_throw _) (atomic_check_bind fun _ _ _ _ h => by cases h)

/-- An existing output port is annotated exactly when nothing is known about it. -/
theorem run_annotate_eq_ok {info : TensorInfo} {value : Unit} :
    (annotate port info).run graph = .ok value result ↔
      port.direction = .output ∧ graph.HasPort port ∧ graph.outputInfo? port = none ∧
        result = graph.modifyOutput port ({ · with info := some info }) := by
  change ((if (graph.outputInfo? port).isSome then _ else reannotate port info : Edit Unit).run graph)
    = _ ↔ _
  cases hinfo : graph.outputInfo? port with
  | some known =>
    rw [if_pos (Option.isSome_some (a := known))]
    constructor
    · intro h
      cases h
    · rintro ⟨_, _, h, _⟩
      cases h
  | none =>
    rw [if_neg (by simp), run_reannotate_eq_ok]
    simp

theorem atomic_annotate {info : TensorInfo} : Atomic (annotate port info) :=
  atomic_get_bind fun _ => atomic_ite (atomic_throw _) atomic_reannotate

/-- Changing a node in place succeeds exactly when the node exists. -/
theorem run_changeNode_eq_ok {f : Node → Node} {value : Unit} :
    (discard (check (·.requireNode id)) >>= fun _ => modify (·.modifyNode id f) : Edit Unit).run graph
      = .ok value result ↔ (graph.node? id).isSome = true ∧ result = graph.modifyNode id f := by
  simp only [run_bind_eq_ok, run_discard_eq_ok, run_check_eq_ok, Graph.requireNode_eq_ok_iff]
  constructor
  · rintro ⟨_, _, ⟨node, hn, rfl⟩, hset⟩
    cases hset
    exact ⟨by rw [hn]; rfl, rfl⟩
  · rintro ⟨hn, rfl⟩
    obtain ⟨node, hn⟩ := Option.isSome_iff_exists.mp hn
    exact ⟨⟨⟩, graph, ⟨node, hn, rfl⟩, rfl⟩

theorem atomic_changeNode {f : Node → Node} :
    Atomic (discard (check (·.requireNode id)) >>= fun _ => modify (·.modifyNode id f) : Edit Unit) := by
  rw [discard, map_const, Function.comp_apply, ← bind_pure_comp, bind_assoc]
  exact atomic_check_bind fun _ _ _ _ h => by cases h

/-- The type of every existing node can be changed. -/
theorem run_setOpType_eq_ok {opType : String} {value : Unit} :
    (setOpType id opType).run graph = .ok value result ↔
      (graph.node? id).isSome = true ∧ result = graph.modifyNode id ({ · with opType }) :=
  run_changeNode_eq_ok

theorem atomic_setOpType {opType : String} : Atomic (setOpType id opType) := atomic_changeNode

/-- Attributes of every existing node can be removed, whether they are present or not. -/
theorem run_removeAttributes_eq_ok {names : List String} {value : Unit} :
    (removeAttributes id names).run graph = .ok value result ↔
      (graph.node? id).isSome = true ∧
        result = graph.modifyNode id fun node =>
          { node with attributes := node.attributes.eraseAll names } :=
  run_changeNode_eq_ok

theorem atomic_removeAttributes {names : List String} : Atomic (removeAttributes id names) :=
  atomic_changeNode

end OpGraph.Edit
