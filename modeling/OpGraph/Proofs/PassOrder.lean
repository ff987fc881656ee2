import Mathlib.Data.List.Permutation
import OpGraph.Proofs.Reachable
import OpGraph.Proofs.View.PassRun

/-!
# The order of independent passes

The passes for maximum poolings, average poolings and gathers must follow the resolution of
markers, and that is all that is said of their order. Each of them rewrites nodes of a kind of its
own, and what becomes of a node depends neither on what became of the others nor on which numbers
are given out first. So the order in which they run does not show in what the graph says of the
names in the end, nor does it decide whether they succeed.
-/

namespace OpGraph

open Edit

/-- An order of the three passes is an order of the three kinds of raw nodes. -/
theorem RawKind.exists_of_perm {passes : List Pass}
    (h : passes.Perm [.maxPool, .avgPool, .gatherAxis]) :
    ∃ kinds : List RawKind, (∀ kind, kind ∈ kinds) ∧ kinds.map RawKind.pass = passes := by
  have hmem : passes ∈ ([RawKind.maxPooling, .avgPooling, .gather].map RawKind.pass).permutations :=
    List.mem_permutations.mpr h
  rw [← List.map_permutations] at hmem
  obtain ⟨kinds, hperm, hmap⟩ := List.mem_map.mp hmem
  refine ⟨kinds, fun kind => (List.mem_permutations.mp hperm).mem_iff.mpr ?_, hmap⟩
  cases kind <;> simp

namespace Edit

/-- The edit succeeds on the graph. -/
def succeeds (edit : Edit Unit) (graph : Graph) : Bool :=
  match edit.run graph with
  | .ok _ _ => true
  | .error _ _ => false

/-- A successful edit ends with the graph that it leaves behind. -/
theorem run_of_succeeds {edit : Edit Unit} {graph : Graph} (h : edit.succeeds graph = true) :
    edit.run graph = .ok () (edit.after graph) := by
  unfold succeeds at h
  unfold after
  cases hrun : edit.run graph with
  | ok value result => rfl
  | error error result =>
    rw [hrun] at h
    cases h

/-- Run passes one after another. -/
def runEach (passes : List Pass) (verify : Bool) : Edit Unit :=
  passes.forM fun pass => discard (pass.run verify)

variable {start : Graph} {named : NodeId → Option String} {seen : View}

/-- Runs of passes rewrite the nodes of their kinds. If the pass for gathers is one of them nothing
was stuck at the start. -/
theorem ensures_shows_runEach (kinds : List RawKind) (verify : Bool) :
    Ensures (·.Shows named seen) (runEach (kinds.map RawKind.pass) verify) fun _ graph =>
      ∃ names : List String, names.Nodup ∧
        (∀ name, name ∈ names ↔ ∃ kind ∈ kinds, seen.kindAt name = some kind) ∧
        (.gather ∈ kinds → ∀ name, ¬ seen.StuckAt name) ∧
        graph.Shows named (names.foldl View.rewrite seen) := by
  induction kinds generalizing seen with
  | nil =>
    refine ensures_pure fun graph h => ⟨[], List.nodup_nil, fun name => ?_, fun hmem => ?_, h⟩
    · simp
    · exact absurd hmem List.not_mem_nil
  | cons kind rest ih =>
    intro graph value result h hrun
    obtain ⟨_, middle, hfirst, hrest⟩ := run_bind_eq_ok.mp hrun
    obtain ⟨stats, hfirst⟩ := run_discard_eq_ok.mp hfirst
    obtain ⟨own, hown, hmemOwn, hfine, hmiddle⟩ :=
      RawKind.ensures_shows_run kind verify _ _ _ h hfirst
    obtain ⟨later, hlater, hmemLater, hfineLater, hresult⟩ := ih _ _ _ hmiddle hrest
    have hkinds := h.bounded.kindAt_foldl_rewrite own
    refine ⟨own ++ later, ?_, fun name => ?_, fun hgather name hstuck => ?_, ?_⟩
    · refine List.nodup_append.mpr ⟨hown, hlater, fun name hname other hother heq => ?_⟩
      subst heq
      obtain ⟨_, _, hkind⟩ := (hmemLater name).mp hother
      rw [hkinds, if_pos hname] at hkind
      cases hkind
    · rw [List.mem_append, hmemLater, hkinds]
      by_cases hname : name ∈ own
      · have hkind := (hmemOwn name).mp hname
        exact iff_of_true (.inl hname) ⟨kind, List.mem_cons_self, hkind⟩
      · have hother : seen.kindAt name ≠ some kind := fun hkind => hname ((hmemOwn name).mpr hkind)
        simp [hname, hother]
    · obtain ⟨reading, hseen, hreading⟩ := hstuck
      have hkind : seen.kindAt name = some .gather := by
        rw [View.kindAt, hseen, Option.bind_some, hreading.1]
      by_cases hname : name ∈ own
      · exact hfine name hname ⟨reading, hseen, hreading⟩
      · have hrestGather : .gather ∈ rest := by
          rcases List.mem_cons.mp hgather with rfl | hmem
          · exact absurd ((hmemOwn name).mpr hkind) hname
          · exact hmem
        exact hfineLater hrestGather name
          (h.bounded.stuckAt_foldl_rewrite hname ⟨reading, hseen, hreading⟩)
    · rwa [List.foldl_append]

/-- Runs of passes fail only if something was stuck at the start. -/
theorem failsOnly_shows_runEach (kinds : List RawKind) (verify : Bool) :
    FailsOnly (·.Shows named seen) (runEach (kinds.map RawKind.pass) verify) fun _ =>
      ∃ name, seen.StuckAt name := by
  induction kinds generalizing seen with
  | nil => exact failsOnly_pure _
  | cons kind rest ih =>
    intro graph error result h hrun
    rcases run_bind_eq_error.mp hrun with hfirst | ⟨_, middle, hfirst, hrest⟩
    · exact failsOnly_discard (RawKind.failsOnly_shows_run kind verify) _ _ _ h hfirst
    · obtain ⟨stats, hfirst⟩ := run_discard_eq_ok.mp hfirst
      obtain ⟨own, _, _, _, hmiddle⟩ := RawKind.ensures_shows_run kind verify _ _ _ h hfirst
      obtain ⟨name, hstuck⟩ := ih _ _ _ hmiddle hrest
      exact ⟨name, h.bounded.stuckAt_of_foldl_rewrite hstuck⟩

end Edit

/-! ### Numbers -/

namespace Graph

variable {start graph : Graph}

/-- The nodes and connections of the start are there still, with their numbers. -/
structure Numbered (start graph : Graph) : Prop where
  /-- Nodes keep number and name. -/
  node : ∀ id name, start.nameOf? id = some name → graph.nameOf? id = some name
  /-- Connections keep number and ends. -/
  connection : ∀ id ends, start.connection? id = some ends → graph.connection? id = some ends

/-- Connections were added to those of the start at most. -/
def ConnectionsStay (start graph : Graph) : Prop :=
  start.nextConnection ≤ graph.nextConnection ∧
    ∀ id ends, start.connection? id = some ends → graph.connection? id = some ends

/-- Additions leave the connections alone that are there. -/
theorem Coherent.additions_connectionsStay (hstart : start.Coherent) :
    Additions start.ConnectionsStay where
  addNode _ _ := fun _ h => h
  addInputPort _ := atomic_addInputPort.keeps fun _ _ _ h hrun => by
    obtain ⟨_, _, _, rfl⟩ := run_addInputPort_eq_ok.mp hrun
    exact h
  addOutputPort _ := atomic_addOutputPort.keeps fun _ _ _ h hrun => by
    obtain ⟨_, _, _, rfl⟩ := run_addOutputPort_eq_ok.mp hrun
    exact h
  connect _ _ := atomic_connect.keeps fun graph _ _ h hrun => by
    obtain ⟨_, _, rfl⟩ := run_connect_eq_ok.mp hrun
    refine ⟨Nat.le_succ_of_le h.1, fun id ends hends => ?_⟩
    rw [connection?_insertConnection, if_neg, h.2 id ends hends]
    rintro rfl
    rw [connection?, hstart.counted.get?_eq_none h.1] at hends
    cases hends
  annotate _ _ := atomic_annotate.keeps fun _ _ _ h hrun => by
    obtain ⟨_, _, _, rfl⟩ := run_annotate_eq_ok.mp hrun
    exact h
  removeAttributes _ _ := atomic_removeAttributes.keeps fun _ _ _ h hrun => by
    obtain ⟨_, rfl⟩ := run_removeAttributes_eq_ok.mp hrun
    exact h

/-- Runs of the passes for poolings and gathers leave the connections alone that are there. -/
theorem Coherent.connectionsStay_runEach (hstart : start.Coherent) (kinds : List RawKind)
    (verify : Bool) : Keeps start.ConnectionsStay (runEach (kinds.map RawKind.pass) verify) := by
  have hadd := hstart.additions_connectionsStay
  have htype : ∀ id opType, Keeps start.ConnectionsStay (setOpType id opType) := fun _ _ =>
    atomic_setOpType.keeps fun _ _ _ h hrun => by
      obtain ⟨_, rfl⟩ := run_setOpType_eq_ok.mp hrun
      exact h
  refine keeps_forM fun pass hpass => keeps_discard (keeps_run_pass verify fun found => ?_)
  obtain ⟨kind, _, rfl⟩ := List.mem_map.mp hpass
  cases kind with
  | maxPooling => exact hadd.canonizeMaxPool fun id _ => htype id _
  | avgPooling => exact hadd.canonizeAvgPool fun id _ => htype id _
  | gather => exact hadd.canonizeGather fun id _ => htype id _

/-- The passes for maximum poolings, average poolings and gathers can run in any order. If they
succeed in one order they do in every other, and in the end the graph says the same of each name:
type, attributes, ports, what feeds each input port by the name of the producer, and what is known
about each output port. Nodes and connections that were there before keep their numbers. -/
theorem view_of_independent_passes (h : start.Reachable) {first second : List Pass}
    (hfirst : first.Perm [.maxPool, .avgPool, .gatherAxis])
    (hsecond : second.Perm [.maxPool, .avgPool, .gatherAxis]) {verify : Bool} {ended : Graph}
    (hrun : (runEach first verify).run start = .ok () ended) (verify' : Bool) :
    ∃ other, (runEach second verify').run start = .ok () other ∧ other.view = ended.view ∧
      start.Numbered ended ∧ start.Numbered other := by
  have hcoherent := h.coherent
  obtain ⟨kinds, hall, rfl⟩ := RawKind.exists_of_perm hfirst
  obtain ⟨kinds', hall', rfl⟩ := RawKind.exists_of_perm hsecond
  obtain ⟨names, hnodup, hmem, hfine, hended⟩ :=
    ensures_shows_runEach kinds verify _ _ _ hcoherent.shows hrun
  have hsucceeds : FailsOnly (·.Shows start.nameOf? start.view)
      (runEach (kinds'.map RawKind.pass) verify') fun _ => False :=
    (failsOnly_shows_runEach kinds' verify').mono (fun _ h => h) fun _ ⟨name, hstuck⟩ =>
      hfine (hall .gather) name hstuck
  obtain ⟨_, other, hother⟩ := hsucceeds.exists_run hcoherent.shows
  obtain ⟨names', hnodup', hmem', _, hshows⟩ :=
    ensures_shows_runEach kinds' verify' _ _ _ hcoherent.shows hother
  -- Both orders rewrite the same nodes, one after another.
  have hperm : names'.Perm names := by
    refine (List.perm_ext_iff_of_nodup hnodup' hnodup).mpr fun name => ?_
    rw [hmem, hmem']
    simp [hall, hall']
  have hstay : ∀ (kinds : List RawKind) verify final,
      (runEach (kinds.map RawKind.pass) verify).run start = .ok () final →
        start.ConnectionsStay final := fun kinds verify final hdone => by
    have hkept := hcoherent.connectionsStay_runEach kinds verify start ⟨Nat.le_refl _, fun _ _ h => h⟩
    rwa [after_of_run_ok hdone] at hkept
  refine ⟨other, hother, ?_, ⟨hended.named, (hstay _ _ _ hrun).2⟩,
    ⟨hshows.named, (hstay _ _ _ hother).2⟩⟩
  rw [hshows.view_eq, hended.view_eq, hcoherent.shows.bounded.foldl_rewrite_perm hperm]

/-- A maximum pooling without a consumer, a gather, and a node that has taken the name of a
terminal of the pooling. -/
def poolingAndGather : Graph :=
  empty.afterAll
    [.addNode
        { opType := "Pooling", name := some "p", attributes := .ofList [("pool_method", .str "max")]
          inputs := 1, outputs := 1 },
      .addNode { opType := "AttributedGather", name := some "g", inputs := 2, outputs := 1 },
      .addNode { opType := "Relu", name := some (terminalName "p" 0), inputs := 1, outputs := 1 }]

/-- Two orders give different numbers to the constant with the axis, but the graph says the same. -/
theorem view_of_independent_passes_poolingAndGather :
    let ended := (runEach [.maxPool, .avgPool, .gatherAxis] true).after poolingAndGather
    let other := (runEach [.gatherAxis, .avgPool, .maxPool] true).after poolingAndGather
    ended.idOf? "g/axis" = some ⟨5⟩ ∧ other.idOf? "g/axis" = some ⟨3⟩ ∧ other.view = ended.view := by
  have hrun : (runEach [.maxPool, .avgPool, .gatherAxis] true).run poolingAndGather =
      .ok () ((runEach [.maxPool, .avgPool, .gatherAxis] true).after poolingAndGather) :=
    run_of_succeeds (by decide +kernel)
  obtain ⟨other, hother, hview, _⟩ := view_of_independent_passes (reachable_of_operations _)
    (List.Perm.refl _) (List.reverse_perm [Pass.maxPool, .avgPool, .gatherAxis]) hrun true
  have hafter : (runEach [.gatherAxis, .avgPool, .maxPool] true).after poolingAndGather = other :=
    after_of_run_ok hother
  refine ⟨by decide +kernel, by decide +kernel, ?_⟩
  rw [hafter, hview]

end Graph

end OpGraph
