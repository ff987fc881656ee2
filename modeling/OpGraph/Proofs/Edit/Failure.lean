import OpGraph.Proofs.Edit.Operation
import OpGraph.Proofs.Graph.Coherent

/-!
# Failures of edits

What can be said of the failed runs of an edit: with which errors they end, and that they leave
the graph as it was. An edit that fails with no error at all succeeds. As far as one can tell from
its start, a loop of changes that could fail halfway is one that cannot fail.
-/

namespace OpGraph

/-- A sequence of checks succeeds exactly if each of them does. -/
theorem Except.forM_eq_ok_iff {ε α : Type} {f : α → Except ε Unit} {items : List α} {value : Unit} :
    items.forM f = .ok value ↔ ∀ item ∈ items, f item = .ok () := by
  induction items with
  | nil => simp [pure, Except.pure]
  | cons head tail ih =>
    change (f head >>= fun _ => tail.forM f) = _ ↔ _
    rw [Except.bind_eq_ok_iff, List.forall_mem_cons]
    constructor
    · rintro ⟨_, hhead, htail⟩
      exact ⟨hhead, ih.mp htail⟩
    · rintro ⟨hhead, htail⟩
      exact ⟨⟨⟩, hhead, ih.mpr htail⟩

namespace Edit

variable {α β : Type} {edit : Edit α} {graph result : Graph} {P R : Graph → Prop}
  {Q : α → Graph → Prop} {E : GraphError → Prop}

/-- A sequence fails in its first part or, after its success, in the rest. -/
theorem run_bind_eq_error {f : α → Edit β} {error : GraphError} :
    (edit >>= f).run graph = .error error result ↔
      edit.run graph = .error error result ∨
        ∃ first middle, edit.run graph = .ok first middle ∧
          (f first).run middle = .error error result := by
  rw [EStateM.run_bind]
  cases edit.run graph <;> simp

/-- An edit that starts with a check fails with the error of its test or in the rest. -/
theorem run_check_bind_eq_error {test : Graph → Except GraphError α} {f : α → Edit β}
    {error : GraphError} :
    (check test >>= f).run graph = .error error result ↔
      (test graph = .error error ∧ result = graph) ∨
        ∃ value, test graph = .ok value ∧ (f value).run graph = .error error result := by
  rw [EStateM.run_bind, run_check]
  cases test graph <;> simp [eq_comm]

/-- After a first part that succeeds an edit does what the rest does. -/
theorem run_of_run_bind {f : α → Edit β} {value : α} {outcome : EStateM.Result GraphError Graph β}
    (hrun : (edit >>= f).run graph = outcome) (hedit : edit.run graph = .ok value result) :
    (f value).run result = outcome := by
  rwa [EStateM.run_bind, hedit] at hrun

/-- After a check that passes an edit does what the rest does. -/
theorem run_of_run_check_bind {test : Graph → Except GraphError α} {f : α → Edit β} {value : α}
    {outcome : EStateM.Result GraphError Graph β} (hrun : (check test >>= f).run graph = outcome)
    (htest : test graph = .ok value) : (f value).run graph = outcome := by
  rwa [EStateM.run_bind, run_check, htest] at hrun

/-- Checks one after another are one check. -/
theorem forM_check (test : α → Graph → Except GraphError Unit) (items : List α) :
    (items.forM fun item => check (test item)) =
      check fun graph => items.forM fun item => test item graph := by
  induction items with
  | nil => rfl
  | cons head tail ih =>
    change (check (test head) >>= fun _ => tail.forM fun item => check (test item)) = _
    rw [ih]
    funext graph
    change (ofExcept (test head graph) >>= fun _ => _ : Edit Unit) graph =
      (ofExcept (test head graph >>= fun _ => tail.forM fun item => test item graph)) graph
    cases test head graph <;> rfl

/-! ### Errors -/

/-- From a graph with the property the edit fails with such errors only. -/
def FailsOnly (P : Graph → Prop) (edit : Edit α) (E : GraphError → Prop) : Prop :=
  ∀ graph error result, P graph → edit.run graph = .error error result → E error

/-- An edit that fails with no error succeeds. -/
theorem FailsOnly.exists_run (h : FailsOnly P edit fun _ => False) (hgraph : P graph) :
    ∃ value result, edit.run graph = .ok value result := by
  cases hrun : edit.run graph with
  | ok value result => exact ⟨value, result, rfl⟩
  | error error result => exact (h graph error result hgraph hrun).elim

/-- Fewer graphs and more errors. -/
theorem FailsOnly.mono {E' : GraphError → Prop} (h : FailsOnly P edit E) (hP : ∀ graph, R graph → P graph)
    (hE : ∀ error, E error → E' error) : FailsOnly R edit E' :=
  fun graph error result hgraph hrun => hE error (h graph error result (hP graph hgraph) hrun)

theorem failsOnly_pure (value : α) : FailsOnly P (pure value) E := fun _ _ _ _ hrun => by
  cases hrun

/-- A change of the graph cannot fail. -/
theorem failsOnly_modify (f : Graph → Graph) : FailsOnly P (modify f) E := fun _ _ _ _ hrun => by
  cases hrun

/-- A check fails with the error of its test. -/
theorem failsOnly_check {test : Graph → Except GraphError α}
    (h : ∀ graph error, P graph → test graph = .error error → E error) :
    FailsOnly P (check test) E := fun graph error result hP hrun => by
  rw [run_check] at hrun
  cases htest : test graph with
  | ok value =>
    rw [htest] at hrun
    cases hrun
  | error _ =>
    rw [htest] at hrun
    cases hrun
    exact h graph _ hP htest

/-- After a check that has passed already comes the rest. -/
theorem failsOnly_ofExcept_bind {outcome : Except GraphError α} {value : α} {f : α → Edit β}
    (hok : outcome = .ok value) (hf : FailsOnly P (f value) E) :
    FailsOnly P (ofExcept outcome >>= f) E := by
  rw [hok]
  exact hf

/-- A sequence fails as its parts do, where the rest starts from what the first part ensures. -/
theorem failsOnly_bind {f : α → Edit β} (hedit : FailsOnly P edit E) (hmiddle : Ensures P edit Q)
    (hf : ∀ value, FailsOnly (Q value) (f value) E) : FailsOnly P (edit >>= f) E := by
  intro graph error result hP hrun
  rcases run_bind_eq_error.mp hrun with hfirst | ⟨value, middle, hfirst, hrest⟩
  · exact hedit graph error result hP hfirst
  · exact hf value middle error result (hmiddle graph value middle hP hfirst) hrest

/-- Reading the graph lets the rest start from the graph that was read. -/
theorem failsOnly_get_bind {f : Graph → Edit α}
    (hf : ∀ graph, P graph → FailsOnly (· = graph) (f graph) E) : FailsOnly P (get >>= f) E :=
  fun graph error result hP hrun => hf graph hP graph error result rfl hrun

/-- After a check the rest starts from the same graph, which has passed the test. -/
theorem failsOnly_check_bind {test : Graph → Except GraphError α} {f : α → Edit β}
    (h : ∀ graph error, P graph → test graph = .error error → E error)
    (hf : ∀ value, FailsOnly (fun graph => P graph ∧ test graph = .ok value) (f value) E) :
    FailsOnly P (check test >>= f) E :=
  failsOnly_bind (failsOnly_check h) (ensures_check fun _ _ hP htest => ⟨hP, htest⟩) hf

theorem failsOnly_discard (h : FailsOnly P edit E) : FailsOnly P (discard edit) E :=
  failsOnly_bind h (fun _ _ _ _ _ => trivial) fun _ => failsOnly_pure _

/-- A loop whose rounds keep a property fails as its rounds do. -/
theorem failsOnly_forM {f : α → Edit PUnit} {items : List α}
    (hf : ∀ item ∈ items, FailsOnly P (f item) E) (hkeep : ∀ item ∈ items, Ensures P (f item) fun _ => P) :
    FailsOnly P (items.forM f) E := by
  induction items with
  | nil => exact failsOnly_pure _
  | cons head tail ih =>
    refine failsOnly_bind (hf head (by simp)) (hkeep head (by simp)) fun _ => ?_
    exact ih (fun item hitem => hf item (List.mem_cons_of_mem head hitem))
      fun item hitem => hkeep item (List.mem_cons_of_mem head hitem)

/-- A fold whose rounds keep a property fails as its rounds do. -/
theorem failsOnly_foldlM {f : β → α → Edit β} {items : List α}
    (hf : ∀ item ∈ items, ∀ state, FailsOnly P (f state item) E)
    (hkeep : ∀ item ∈ items, ∀ state, Ensures P (f state item) fun _ => P) (start : β) :
    FailsOnly P (items.foldlM f start) E := by
  induction items generalizing start with
  | nil => exact failsOnly_pure _
  | cons head tail ih =>
    rw [List.foldlM_cons]
    refine failsOnly_bind (hf head (by simp) start) (hkeep head (by simp) start) fun next => ?_
    exact ih (fun item hitem => hf item (List.mem_cons_of_mem head hitem))
      (fun item hitem => hkeep item (List.mem_cons_of_mem head hitem)) next

/-- A traversal whose rounds keep a property fails as its rounds do. -/
theorem failsOnly_mapM {f : α → Edit β} {items : List α}
    (hf : ∀ item ∈ items, FailsOnly P (f item) E) (hkeep : ∀ item ∈ items, Ensures P (f item) fun _ => P) :
    FailsOnly P (items.mapM f) E := by
  induction items with
  | nil =>
    rw [List.mapM_nil]
    exact failsOnly_pure _
  | cons head tail ih =>
    rw [List.mapM_cons]
    have htail := ih (fun item hitem => hf item (List.mem_cons_of_mem head hitem))
      fun item hitem => hkeep item (List.mem_cons_of_mem head hitem)
    refine failsOnly_bind (hf head (by simp)) (hkeep head (by simp)) fun first => ?_
    exact failsOnly_bind htail (fun _ _ _ _ _ => trivial) fun rest => failsOnly_pure _

/-! ### Atomic edits -/

/-- A failed run of the edit leaves a graph with the property as it was. -/
def AtomicOn (P : Graph → Prop) (edit : Edit α) : Prop :=
  ∀ graph error result, P graph → edit.run graph = .error error result → result = graph

theorem Atomic.atomicOn (h : Atomic edit) : AtomicOn P edit :=
  fun graph error result _ hrun => h graph error result hrun

/-- What cannot fail is atomic. -/
theorem FailsOnly.atomicOn (h : FailsOnly P edit fun _ => False) : AtomicOn P edit :=
  fun graph error result hP hrun => (h graph error result hP hrun).elim

/-- A check changes nothing, so it can precede every edit that is atomic once it has passed. -/
theorem atomicOn_check_bind {test : Graph → Except GraphError α} {f : α → Edit β}
    (hf : ∀ value, AtomicOn (fun graph => P graph ∧ test graph = .ok value) (f value)) :
    AtomicOn P (check test >>= f) := by
  intro graph error result hP hrun
  rw [EStateM.run_bind, run_check] at hrun
  cases htest : test graph with
  | ok value =>
    rw [htest] at hrun
    exact hf value graph error result ⟨hP, htest⟩ hrun
  | error _ =>
    rw [htest] at hrun
    cases hrun
    rfl

/-- Throwing the result of an edit away leaves its failures alone. -/
theorem atomicOn_discard (h : AtomicOn P edit) : AtomicOn P (discard edit) := by
  intro graph error result hP hrun
  rcases run_bind_eq_error.mp hrun with hfirst | ⟨_, _, _, hrest⟩
  · exact h graph error result hP hfirst
  · cases hrest

/-! ### Operations -/

variable {id : NodeId} {connections : List ConnectionId} {source destination port : PortRef}

/-- An edit that succeeds whenever the property holds does not fail. -/
theorem failsOnly_of_exists
    (h : ∀ graph, P graph → ∃ value result, edit.run graph = .ok value result) :
    FailsOnly P edit E := fun graph error result hP hrun => by
  obtain ⟨value, final, hok⟩ := h graph hP
  rw [hok] at hrun
  cases hrun

/-- A node that exists is found. -/
theorem failsOnly_requireNode_bind {f : Node → Edit α}
    (hexists : ∀ graph, P graph → (graph.node? id).isSome = true)
    (hf : ∀ node, FailsOnly (fun graph => P graph ∧ graph.node? id = some node) (f node) E) :
    FailsOnly P (check (·.requireNode id) >>= f) E := by
  refine failsOnly_check_bind (fun graph error hP herror => ?_) fun node =>
    (hf node).mono (fun graph h => ⟨h.1, graph.requireNode_eq_ok_iff.mp h.2⟩) fun _ h => h
  obtain ⟨node, hn⟩ := Option.isSome_iff_exists.mp (hexists graph hP)
  rw [graph.requireNode_eq_ok_iff.mpr hn] at herror
  cases herror

/-- The type of a node that exists can be changed. -/
theorem failsOnly_setOpType (opType : String) :
    FailsOnly (fun graph => (graph.node? id).isSome = true) (setOpType id opType) E :=
  failsOnly_of_exists fun _ hn => ⟨(), _, run_setOpType_eq_ok.mpr ⟨hn, rfl⟩⟩

/-- Attributes of a node that exists can be removed. -/
theorem failsOnly_removeAttributes (names : List String) :
    FailsOnly (fun graph => (graph.node? id).isSome = true) (removeAttributes id names) E :=
  failsOnly_of_exists fun _ hn => ⟨(), _, run_removeAttributes_eq_ok.mpr ⟨hn, rfl⟩⟩

/-- A node that exists can get one more input port. -/
theorem failsOnly_addInputPort :
    FailsOnly (fun graph => (graph.node? id).isSome = true) (addInputPort id) E :=
  failsOnly_of_exists fun graph hn => by
    obtain ⟨node, hn⟩ := Option.isSome_iff_exists.mp hn
    exact ⟨_, _, run_addInputPort_eq_ok.mpr ⟨node, hn, rfl, rfl⟩⟩

/-- Something can be said of an output port of which nothing is known. -/
theorem failsOnly_annotate (info : TensorInfo) :
    FailsOnly (fun graph => port.direction = .output ∧ graph.HasPort port ∧
      graph.outputInfo? port = none) (annotate port info) E :=
  failsOnly_of_exists fun _ h => ⟨(), _, run_annotate_eq_ok.mpr ⟨h.1, h.2.1, h.2.2, rfl⟩⟩

/-- Different connections of the table can be removed one after another. -/
theorem failsOnly_disconnectAll (hnodup : connections.Nodup) :
    FailsOnly (fun graph => ∀ connection ∈ connections, (graph.connection? connection).isSome = true)
      (disconnectAll connections) E := by
  induction connections with
  | nil => exact failsOnly_pure _
  | cons head tail ih =>
    obtain ⟨hhead, htail⟩ := List.nodup_cons.mp hnodup
    refine failsOnly_bind (Q := fun _ graph =>
      ∀ connection ∈ tail, (graph.connection? connection).isSome = true) ?_ ?_ fun _ => ih htail
    · refine failsOnly_discard (failsOnly_check_bind (fun graph error hall herror => ?_) fun ends => ?_)
      · obtain ⟨ends, hends⟩ := Option.isSome_iff_exists.mp (hall head (by simp))
        rw [graph.requireConnection_eq_ok_iff.mpr hends] at herror
        cases herror
      · exact failsOnly_bind (failsOnly_modify _) (fun _ _ _ _ _ => trivial) fun _ => failsOnly_pure _
    · refine ensures_discard fun graph _ result hall hrun connection hmem => ?_
      obtain ⟨_, rfl⟩ := run_disconnect_eq_ok.mp hrun
      rw [Graph.connection?_eraseConnection, if_neg fun heq : connection = head => hhead (heq ▸ hmem)]
      exact hall connection (List.mem_cons_of_mem head hmem)

/-- The removal of connections removes no node. -/
theorem keeps_node_disconnectAll :
    Keeps (fun graph => (graph.node? id).isSome = true) (disconnectAll connections) :=
  keeps_disconnectAll fun connection => atomic_disconnect.keeps fun graph ends result hn hrun => by
    obtain ⟨_, rfl⟩ := run_disconnect_eq_ok.mp hrun
    have hbare : (graph.eraseConnection connection ends).bare? id = graph.bare? id :=
      Graph.bare?_eraseConnection ends id
    rwa [← Graph.isSome_bare?, hbare, Graph.isSome_bare?]

end Edit

end OpGraph
