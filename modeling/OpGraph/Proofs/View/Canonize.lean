import OpGraph.Proofs.Pass.Failure
import OpGraph.Proofs.View.Growth
import OpGraph.Proofs.View.Shows

/-!
# Passes for poolings and gathers, read by name

Terminals, poolings and gathers are made by additions, so what the graph says of the names
afterwards follows from what it said before. A run of the rewrite of a raw node does to the graph
what rewriting its name does to the view of the graph.
-/

namespace OpGraph

open Edit

variable {graph : Graph} {named : NodeId → Option String} {seen : View} {id : NodeId}
  {name : String} {reading : Reading}

namespace Graph.Shows

/-- A new node need not be known by name any longer. -/
theorem forget {new : NodeId} {value : Option String}
    (h : graph.Shows (Function.update named new value) seen) (hnew : named new = none) :
    graph.Shows named seen :=
  h.mono fun other otherName hother => by
    rw [Function.update_of_ne (ne_of_apply_ne named (by rw [hother, hnew]; nofun)), hother]

variable (h : graph.Shows named seen) (hname : named id = some name)
include h hname

/-- A node that is known by name carries it. -/
theorem name_of_node? {node : Node} (hn : graph.node? id = some node) : node.name = name := by
  obtain ⟨own, hown, hsame⟩ := h.exists_node hname
  rw [hn, Option.some.injEq] at hown
  rw [hown, hsame]

variable (hseen : seen name = some reading) {node : Node} (hn : graph.node? id = some node)
include hseen hn

/-- What is said of a node that is at hand. -/
theorem reading_of_node? : node.reading (graph.feedName? id) (graph.isUsed id) = reading := by
  obtain ⟨bare, hbare, hreading⟩ := h.exists_bare hname hseen
  rw [bare?_of_node? hn, Option.some.injEq] at hbare
  rw [← hreading, ← hbare]
  simp only [Node.reading, Node.bare, List.length_map, List.getElem?_map, Reading.mk.injEq, true_and,
    and_true]
  funext index
  cases node.outputs[index]? <;> rfl

/-- The open output ports are those of which it is said. -/
theorem disconnectedOutputs_eq : node.disconnectedOutputs = reading.openPorts := by
  have hindexed := (h.coherent.registered.indexed id node hn).2
  have hpositions : node.outputs.map (·.index) = List.range node.outputs.length := by
    apply List.ext_getElem
    · simp
    · intro position hposition _
      rw [List.getElem_map, List.getElem_range]
      exact hindexed position _ (List.getElem?_eq_getElem (by simpa using hposition))
  -- Whether a port is open can be told from its position.
  have hopen : ∀ port ∈ node.outputs, port.isDisconnected = !graph.isUsed id port.index := by
    intro port hport
    obtain ⟨position, hposition⟩ := List.mem_iff_getElem?.mp hport
    rw [isUsed, Bool.not_not, hindexed position port hposition, listed, hn]
    simp only [Option.map_some, Option.getD_some, Node.listed, hposition]
    rfl
  unfold Node.disconnectedOutputs Reading.openPorts
  rw [← h.reading_of_node? hname hseen hn, List.filter_congr hopen]
  change (node.outputs.filter ((fun index => !graph.isUsed id index) ∘ (·.index))).map (·.index) = _
  rw [← List.filter_map, hpositions]
  rfl

end Graph.Shows

/-- The axis that a gather names in its attributes. -/
theorem gatherAxis_eq_ok_iff {node : Node} {axis : Int} (feeds : Nat → Option (String × Nat))
    (used : Nat → Bool) : gatherAxis node = .ok axis ↔ (node.reading feeds used).axis? = some axis := by
  have hattributes : (node.reading feeds used).attributes = node.attributes := rfl
  rw [gatherAxis, Reading.axis?, hattributes]
  cases node.attributes.get? "axis" with
  | none => simp
  | some value => cases value <;> simp [AttrValue.int?]

/-! ### Terminals -/

section

variable (hname : named id = some name) (hseen : seen name = some reading)
include hname hseen

/-- A terminal is named after the node and fed by the port, which is used then. -/
theorem ensures_shows_addTerminal {node : Node} (hnode : node.name = name) (index : Nat) :
    Ensures (·.Shows named seen) (addTerminal id node index) fun _ graph =>
      graph.Shows named ((seen.put name (reading.use index)).put
        (seen.fresh (terminalName name index)) (.terminal name node.attributes index)) := by
  intro graph terminal result h hrun
  obtain ⟨_, added, hadd, hrun⟩ := run_bind_eq_ok.mp hrun
  have hbase : (terminalDesc node index).name = some (terminalName name index) := by
    rw [← hnode]
    rfl
  obtain ⟨hnew, hadded⟩ := ensures_shows_addNode hbase _ _ _ h hadd
  obtain ⟨_, connected, hconnect, hpure⟩ := run_bind_eq_ok.mp hrun
  cases hpure
  obtain ⟨_, hconnect⟩ := run_discard_eq_ok.mp hconnect
  have hother : terminal ≠ id := ne_of_apply_ne named (by rw [hnew, hname]; nofun)
  have hnames := (h.fresh_ne hseen (terminalName name index)).symm
  have hconnected := ensures_shows_connect ((Function.update_of_ne hother.symm ..).trans hname)
    ((View.put_of_ne hnames).trans hseen) (Function.update_self ..) View.put_self hother _ _ _ hadded
    hconnect
  rw [View.put_comm hnames.symm, View.put_put] at hconnected
  exact hconnected.forget hnew

/-- Every one of different ports gets a terminal. -/
theorem ensures_shows_addTerminals {node : Node} (hnode : node.name = name) {ports : List Nat}
    (hports : ports.Nodup) :
    Ensures (·.Shows named seen) (ports.mapM (addTerminal id node)) fun _ graph =>
      graph.Shows named ((seen.put name (reading.useAll ports)).putAll
        (seen.terminals name node.attributes ports)) := by
  induction ports generalizing seen reading with
  | nil =>
    rw [List.mapM_nil]
    refine ensures_pure fun graph h => ?_
    change graph.Shows named (seen.put name reading)
    rwa [View.put_eq_self hseen]
  | cons index rest ih =>
    obtain ⟨hindex, hrest⟩ := List.nodup_cons.mp hports
    rw [List.mapM_cons]
    intro graph value result h hrun
    have hnames := h.fresh_ne hseen (terminalName name index)
    obtain ⟨_, middle, hadd, hrun⟩ := run_bind_eq_ok.mp hrun
    obtain ⟨_, final, hloop, hpure⟩ := run_bind_eq_ok.mp hrun
    cases hpure
    have hadded := ensures_shows_addTerminal hname hseen hnode index _ _ _ h hadd
    have hfinal := ih ((View.put_of_ne hnames.symm).trans View.put_self) hrest _ _ _ hadded hloop
    -- The terminal of one port does not take the name of the terminal of another one.
    have hsame : ((seen.put name (reading.use index)).put (seen.fresh (terminalName name index))
        (.terminal name node.attributes index)).terminals name node.attributes rest =
        seen.terminals name node.attributes rest := by
      refine List.map_congr_left fun position hposition => ?_
      rw [View.fresh_put_of_not_growsFrom, View.fresh_put_of_isSome (by rw [hseen]; rfl)]
      intro hgrows
      have hstem := (isStem_terminalName name index).eq_of_growsFrom (isStem_terminalName name position)
        (seen.growsFrom_fresh _) hgrows
      exact hindex ((terminalName_inj hstem).2 ▸ hposition)
    rw [hsame, View.put_comm hnames, View.put_put] at hfinal
    exact hfinal

/-- The open output ports of a node get terminals. -/
theorem ensures_shows_terminate :
    Ensures (·.Shows named seen) (terminate id) fun _ graph =>
      graph.Shows named (seen.putAll (seen.poolGrowth name reading)) := by
  intro graph value result h hrun
  obtain ⟨node, hfound, hrun⟩ := run_check_bind_eq_ok.mp hrun
  obtain ⟨own, hagain, hrun⟩ := run_check_bind_eq_ok.mp hrun
  rw [hfound, Except.ok.injEq] at hagain
  subst hagain
  have hn := graph.requireNode_eq_ok_iff.mp hfound
  rw [forM_check] at hrun
  obtain ⟨_, _, hrun⟩ := run_check_bind_eq_ok.mp hrun
  have hports : node.disconnectedOutputs.filter (node.disconnectedOutputs.contains ·) =
      reading.openPorts := by
    rw [h.disconnectedOutputs_eq hname hseen hn]
    exact List.filter_eq_self.mpr fun index hindex => List.contains_iff_mem.mpr hindex
  have hattributes : node.attributes = reading.attributes := by
    rw [← h.reading_of_node? hname hseen hn]
    rfl
  have hnodup : reading.openPorts.Nodup := List.nodup_range.filter _
  rw [hports] at hrun
  have hdone := ensures_shows_addTerminals hname hseen (h.name_of_node? hname hn) hnodup _ _ _ h hrun
  rw [hattributes] at hdone
  exact hdone

/-! ### Poolings -/

/-- A pooling of a method gets its type, and its open output ports get terminals. -/
theorem ensures_shows_setMethod (opType : String) (names : List String) :
    Ensures (·.Shows named seen) (do
        setOpType id opType
        removeAttributes id names
        discard (terminate id))
      fun _ graph =>
        graph.Shows named (seen.putAll (seen.poolGrowth name (reading.pooled opType names))) := by
  refine ensures_bind (ensures_shows_setOpType hname hseen opType) fun _ =>
    ensures_bind (ensures_shows_removeAttributes hname View.put_self names) fun _ => ensures_discard ?_
  rw [View.put_put]
  intro graph value result h hrun
  have hdone := ensures_shows_terminate hname View.put_self graph value result h hrun
  rwa [View.putAll_poolGrowth_put (by rw [hseen]; rfl)] at hdone

/-- The port for the positions knows what is known about the maxima. -/
theorem ensures_shows_addIndicesPort (hports : reading.outputs < 2) :
    Ensures (·.Shows named seen) (addIndicesPort id) fun _ graph =>
      graph.Shows named (seen.put name reading.withIndices) := by
  refine ensures_get_bind fun graph h start value result hstart hrun => ?_
  subst hstart
  obtain ⟨bare, hbare, hreading⟩ := h.exists_bare hname hseen
  have hvalues : start.outputInfo? (.output id 0) = reading.infos 0 := by
    rw [Graph.outputInfo?_output hbare, ← hreading]
    rfl
  obtain ⟨index, extended, hadd, hrest⟩ := run_bind_eq_ok.mp hrun
  obtain ⟨rfl, hextended⟩ := ensures_shows_addOutputPort hname hseen _ _ _ h hadd
  unfold Reading.withIndices
  rw [if_pos hports]
  rw [hvalues] at hrest
  cases hinfo : reading.infos 0 with
  | none =>
    rw [hinfo] at hrest
    cases hrest
    exact hextended
  | some info =>
    rw [hinfo] at hrest
    have hknown := ensures_shows_annotate hname View.put_self info (Nat.lt_succ_self _) _ _ _ hextended
      hrest
    rwa [View.put_put] at hknown

theorem ensures_shows_canonizeMaxPool :
    Ensures (·.Shows named seen) (canonizeMaxPool ⟨[("pool", id)]⟩) fun _ graph =>
      graph.Shows named (seen.putAll (seen.growthOf name reading .maxPooling)) := by
  intro graph value result h hrun
  obtain ⟨_, hid, hrun⟩ := run_ofExcept_bind_eq_ok.mp hrun
  cases hid
  obtain ⟨node, hfound, hrun⟩ := run_check_bind_eq_ok.mp hrun
  have hn := graph.requireNode_eq_ok_iff.mp hfound
  have hcount : node.outputs.length = reading.outputs := by
    rw [← h.reading_of_node? hname hseen hn]
    rfl
  rw [hcount] at hrun
  by_cases hports : reading.outputs < 2
  · rw [if_pos hports] at hrun
    obtain ⟨_, extended, hextend, hrun⟩ := run_bind_eq_ok.mp hrun
    have hextended := ensures_shows_addIndicesPort hname hseen hports _ _ _ h hextend
    have hdone := ensures_shows_setMethod hname View.put_self "MaxPool" _ _ _ _ hextended hrun
    rwa [View.putAll_poolGrowth_put (by rw [hseen]; rfl)] at hdone
  · rw [if_neg hports] at hrun
    have hdone := ensures_shows_setMethod hname hseen "MaxPool" _ _ _ _ h hrun
    have hsame : reading.withIndices = reading := if_neg hports
    rwa [← hsame] at hdone

theorem ensures_shows_canonizeAvgPool :
    Ensures (·.Shows named seen) (canonizeAvgPool ⟨[("pool", id)]⟩) fun _ graph =>
      graph.Shows named (seen.putAll (seen.growthOf name reading .avgPooling)) := by
  intro graph value result h hrun
  obtain ⟨_, hid, hrun⟩ := run_ofExcept_bind_eq_ok.mp hrun
  cases hid
  exact ensures_shows_setMethod hname hseen "AvgPool" _ _ _ _ h hrun

/-! ### Gathers -/

/-- As many more input ports as the loop has rounds, which nothing feeds. -/
theorem ensures_shows_addInputPorts {α : Type} (items : List α) :
    Ensures (·.Shows named seen) (items.forM fun _ => discard (addInputPort id)) fun _ graph =>
      graph.Shows named (seen.put name { reading with inputs := reading.inputs + items.length }) := by
  induction items generalizing seen reading with
  | nil =>
    refine ensures_pure fun graph h => ?_
    change graph.Shows named (seen.put name reading)
    rwa [View.put_eq_self hseen]
  | cons head tail ih =>
    refine ensures_bind (ensures_discard (ensures_shows_addInputPort hname hseen)) fun _ => ?_
    have hport : seen.put name reading.withInput name = some reading.withInput := View.put_self
    have hrest := ih hport
    rw [View.put_put] at hrest
    simp only [Reading.withInput, Nat.add_assoc, Nat.add_comm 1] at hrest
    exact hrest

/-- A gather that is to read its axis from a constant gets the ports that it lacks, the connection
and the type. -/
theorem ensures_shows_readAxis {const : NodeId} {constName : String} {constReading : Reading}
    (hconst : named const = some constName) (hconstSeen : seen constName = some constReading)
    (hother : id ≠ const) (hnames : constName ≠ name) :
    Ensures (·.Shows named seen) (do
        (List.range (3 - reading.inputs)).forM fun _ => discard (addInputPort id)
        discard (connect (.output const 0) (.input id 2))
        removeAttributes id ["axis"]
        setOpType id "Gather")
      fun _ graph => graph.Shows named
        ((seen.put name (reading.gathered constName)).put constName (constReading.use 0)) := by
  refine ensures_bind (ensures_shows_addInputPorts hname hseen _) fun _ =>
    ensures_bind (ensures_discard (ensures_shows_connect hconst
      ((View.put_of_ne hnames).trans hconstSeen) hname View.put_self hother)) fun _ =>
    ensures_bind (ensures_shows_removeAttributes hname View.put_self _) fun _ => ?_
  intro graph value result h hrun
  have hdone := ensures_shows_setOpType hname View.put_self _ _ _ _ h hrun
  rw [View.put_put, View.put_put, View.put_comm hnames.symm, View.put_put, View.put_comm hnames,
    List.length_range] at hdone
  exact hdone

/-- The axis of a gather goes into a constant, which feeds the third input. -/
theorem ensures_shows_canonizeGather :
    Ensures (·.Shows named seen) (canonizeGather ⟨[("gather", id)]⟩) fun _ graph =>
      ¬ reading.Stuck ∧ graph.Shows named (seen.putAll (seen.growthOf name reading .gather)) := by
  intro graph value result h hrun
  obtain ⟨_, hid, hrun⟩ := run_ofExcept_bind_eq_ok.mp hrun
  cases hid
  obtain ⟨node, hfound, hrun⟩ := run_check_bind_eq_ok.mp hrun
  have hn := graph.requireNode_eq_ok_iff.mp hfound
  have hreading := h.reading_of_node? hname hseen hn
  obtain ⟨axis, haxis, hrun⟩ := run_ofExcept_bind_eq_ok.mp hrun
  rw [gatherAxis_eq_ok_iff (graph.feedName? id) (graph.isUsed id), hreading] at haxis
  obtain ⟨_, hslot, hrun⟩ := run_check_bind_eq_ok.mp hrun
  have hfree : reading.feeds 2 = none := by
    rw [← hreading]
    change graph.feedName? id 2 = none
    rw [Graph.feedName?, Graph.inputSource?_eq, checkAxisInput_eq_ok_iff.mp hslot]
    rfl
  refine ⟨fun hstuck => ?_, ?_⟩
  · rcases hstuck.2 with hnone | hfed
    · rw [haxis] at hnone
      cases hnone
    · exact hfed hfree
  -- The constant is another node and has another name.
  obtain ⟨const, added, hadd, hrun⟩ := run_bind_eq_ok.mp hrun
  have hbase : (axisDesc node axis).name = some (axisName name) := by
    rw [← h.name_of_node? hname hn]
    rfl
  have hnames := h.fresh_ne hseen (axisName name)
  obtain ⟨hnew, hadded⟩ := ensures_shows_addNode hbase _ _ _ h hadd
  have hother : id ≠ const := ne_of_apply_ne named (by rw [hname, hnew]; nofun)
  have hconst := Function.update_self const (some (seen.fresh (axisName name))) named
  have hown := (Function.update_of_ne hother (some (seen.fresh (axisName name))) named).trans hname
  obtain ⟨_, annotated, hannotate, hrun⟩ := run_bind_eq_ok.mp hrun
  have hannotated := ensures_shows_annotate hconst View.put_self _ Nat.zero_lt_one _ _ _ hadded hannotate
  have hinputs : node.inputs.length = reading.inputs := by
    rw [← hreading]
    rfl
  rw [hinputs] at hrun
  rw [View.put_put] at hannotated
  have hdone := ensures_shows_readAxis hown ((View.put_of_ne hnames.symm).trans hseen) hconst
    View.put_self hother hnames _ _ _ hannotated hrun
  rw [View.put_comm hnames, View.put_put] at hdone
  unfold View.growthOf View.gatherGrowth
  rw [haxis]
  exact hdone.forget hnew

/-- A gather is made canonical unless its axis cannot be moved. -/
theorem failsOnly_shows_canonizeGather (hkind : reading.kind? = some .gather) :
    FailsOnly (·.Shows named seen) (canonizeGather ⟨[("gather", id)]⟩) fun _ => reading.Stuck := by
  intro graph error result h hrun
  obtain ⟨node, hn, _⟩ := h.exists_node hname
  have hreading := h.reading_of_node? hname hseen hn
  by_contra hfine
  have hmovable : reading.axis? ≠ none ∧ reading.feeds 2 = none := by
    unfold Reading.Stuck at hfine
    push Not at hfine
    exact hfine hkind
  obtain ⟨axis, haxis⟩ := Option.ne_none_iff_exists'.mp hmovable.1
  rw [← hreading] at haxis hmovable
  have hread := (gatherAxis_eq_ok_iff _ _).mpr haxis
  have hunfed : (graph.inputSource? id 2).isSome = true → False := fun hfed => by
    obtain ⟨port, hport⟩ := Option.isSome_iff_exists.mp hfed
    obtain ⟨producer, hproducer, _⟩ := h.coherent.hasPort_of_inputSource? hport
    have hfeeds : graph.feedName? id 2 = none := hmovable.2
    rw [Graph.feedName?, hport, Option.bind_some, Graph.nameOf?, hproducer] at hfeeds
    cases hfeeds
  exact (failsOnly_canonizeGather hread graph error result ⟨h.coherent, hn, hunfed⟩ hrun).1

end

/-! ### Passes -/

namespace RawKind

/-- The pass that looks for nodes of the kind. -/
def pass : RawKind → Pass
  | .maxPooling => .maxPool
  | .avgPooling => .avgPool
  | .gather => .gatherAxis

/-- What the pass looks for. -/
def pattern : RawKind → NodePattern
  | .maxPooling => ⟨"pool", some "Pooling", [.equals "pool_method" (.str "max")]⟩
  | .avgPooling => ⟨"pool", some "Pooling", [.equals "pool_method" (.str "avg")]⟩
  | .gather => ⟨"gather", some "AttributedGather", []⟩

theorem isSingle_pattern (kind : RawKind) : kind.pass.pattern.IsSingle kind.pattern := by
  cases kind with
  | maxPooling | avgPooling =>
    exact Pattern.isSingle_constrain (Pattern.isSingle_single "pool" "Pooling") _
  | gather => exact Pattern.isSingle_single "gather" "AttributedGather"

theorem standard_pass (kind : RawKind) : kind.pass.Standard :=
  PassRegistry.standard_of_mem (by cases kind <;> simp [pass, PassRegistry.standard])

/-- Whether an attribute is a certain text. -/
theorem holds_equals_str (attributes : Attributes) (name value : String) :
    (AttrPredicate.equals name (.str value)).holds attributes = true ↔
      attributes.str? name = some value := by
  change (attributes.get? name).any (·.beq (.str value)) = true ↔
    (attributes.get? name).bind AttrValue.str? = some value
  cases attributes.get? name with
  | none => simp
  | some found => cases found <;> simp [AttrValue.beq, AttrValue.str?]

/-- The pass accepts the nodes of its kind. -/
theorem accepts_iff (kind : RawKind) (node : Node) (feeds : Nat → Option (String × Nat))
    (used : Nat → Bool) :
    kind.pattern.accepts node = true ↔ (node.reading feeds used).kind? = some kind := by
  have hmethods : node.attributes.str? "pool_method" = some "avg" →
      node.attributes.str? "pool_method" ≠ some "max" := fun h => by
    rw [h]
    decide
  unfold Reading.kind? NodePattern.accepts
  cases kind with
  | maxPooling | avgPooling =>
    simp only [pattern, Option.all_some, List.all_cons, List.all_nil, Bool.and_true, Bool.and_eq_true,
      decide_eq_true_eq, holds_equals_str, Node.reading]
    grind
  | gather =>
    simp only [pattern, Option.all_some, List.all_nil, Bool.and_true, decide_eq_true_eq, Node.reading]
    grind

variable (hname : named id = some name) (hseen : seen name = some reading) {kind : RawKind}
  (hkind : reading.kind? = some kind)
include hname hseen hkind

/-- The pass rewrites a node of its kind, the axis of which can be moved. -/
theorem ensures_shows_apply :
    Ensures (·.Shows named seen) (kind.pass.apply ⟨[(kind.pattern.label, id)]⟩) fun _ graph =>
      ¬ reading.Stuck ∧ graph.Shows named (seen.rewrite name) := by
  unfold View.rewrite
  rw [View.growth_of_kind? hseen hkind]
  have hfine : kind ≠ .gather → ¬ reading.Stuck := fun hne hstuck => by
    exact hne (Option.some.inj (hkind.symm.trans hstuck.1))
  cases kind with
  | maxPooling =>
    exact fun _ _ _ h hrun => ⟨hfine (by decide), ensures_shows_canonizeMaxPool hname hseen _ _ _ h hrun⟩
  | avgPooling =>
    exact fun _ _ _ h hrun => ⟨hfine (by decide), ensures_shows_canonizeAvgPool hname hseen _ _ _ h hrun⟩
  | gather => exact ensures_shows_canonizeGather hname hseen

/-- The pass fails only with a gather the axis of which cannot be moved. -/
theorem failsOnly_shows_apply :
    FailsOnly (·.Shows named seen) (kind.pass.apply ⟨[(kind.pattern.label, id)]⟩)
      fun _ => reading.Stuck := by
  have hexists : ∀ graph : Graph, graph.Shows named seen →
      graph.Coherent ∧ (graph.node? id).isSome = true := fun graph h => by
    obtain ⟨node, hn, _⟩ := h.exists_node hname
    exact ⟨h.coherent, by rw [hn]; rfl⟩
  cases kind with
  | maxPooling => exact failsOnly_canonizeMaxPool.mono hexists fun _ h => h
  | avgPooling => exact failsOnly_canonizeAvgPool.mono hexists fun _ h => h
  | gather => exact failsOnly_shows_canonizeGather hname hseen hkind

end RawKind

end OpGraph
