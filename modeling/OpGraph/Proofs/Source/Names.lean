import OpGraph.Proofs.Source.Exact

/-!
# Names of imported nodes

Inputs and operators of a model are made first and keep their names. Then each requested output
brings two nodes: its marker, which asks for the name of the output, and a graph output behind it,
whose name is made up from that of the output. A made-up name may be requested by a later output,
whose marker then gets another one. Nothing else takes a name away.
-/

namespace OpGraph

open Edit

/-- The name leads to the node, which carries it and is as a description asks. -/
def Graph.Carries (graph : Graph) (name : String) (id : NodeId) (desc : NodeDesc) : Prop :=
  graph.idOf? name = some id ∧
    ∃ node, graph.node? id = some node ∧ node.name = name ∧ node.MadeFrom desc

/-- The graph output behind the marker of the output may get this name. -/
def SourceOutput.MakesUp (output : SourceOutput) (name : String) : Prop :=
  name = s!"{output.name}/sink" ∨ ∃ number, name = Graph.suffixed s!"{output.name}/sink" number

namespace Graph

variable {graph : Graph} {name other : String} {id : NodeId}

/-- A free name is given to the node that asks for it, and all other names lead where they led. -/
theorem idOf?_insertNode_of_free (hfree : graph.idOf? name = none) (desc : NodeDesc) :
    (graph.insertNode { desc with name := some name }).idOf? other =
      if other = name then some ⟨graph.nextNode⟩ else graph.idOf? other := by
  have hname : (graph.newNode { desc with name := some name }).name = name :=
    graph.freshName_of_free name hfree
  rw [idOf?_insertNode, hname]

/-- The node to which a name leads carries it. -/
theorem Registered.exists_node_of_idOf? (h : graph.Registered)
    (hname : graph.idOf? name = some id) :
    ∃ node, graph.node? id = some node ∧ node.name = name :=
  Option.map_eq_some_iff.mp ((h.named name id).mp hname)

/-- No two names lead to the same node. -/
theorem Registered.idOf?_inj (h : graph.Registered) (hname : graph.idOf? name = some id)
    (hother : graph.idOf? other = some id) : name = other := by
  have hsame := (h.named name id).mp hname
  rw [(h.named other id).mp hother, Option.some.injEq] at hsame
  exact hsame.symm

/-- What was asked of a node can be said of it. -/
theorem Drawn.exists_madeFrom {drafts : List NodeDesc} {wires : List (Option Connection)}
    (h : graph.Drawn drafts wires) {desc : NodeDesc} (hdesc : drafts[id.index]? = some desc) :
    ∃ node, graph.node? id = some node ∧ node.MadeFrom desc := by
  obtain ⟨hlength, hmade⟩ := List.forall₂_iff_get.mp h.nodes
  obtain ⟨hlt, rfl⟩ := List.getElem?_eq_some_iff.mp hdesc
  exact ⟨_, (h.node?_eq id).trans (List.getElem?_eq_getElem (hlength ▸ hlt)),
    hmade id.index hlt (hlength ▸ hlt)⟩

/-- A name that leads to a node that was asked for is carried by it. -/
theorem Drawn.carries {drafts : List NodeDesc} {wires : List (Option Connection)}
    (h : graph.Drawn drafts wires) {desc : NodeDesc} (hdesc : drafts[id.index]? = some desc)
    (hname : graph.idOf? name = some id) : graph.Carries name id desc := by
  obtain ⟨node, hn, hmade⟩ := h.exists_madeFrom hdesc
  obtain ⟨own, hown, hcarried⟩ := h.coherent.registered.exists_node_of_idOf? hname
  rw [hn, Option.some.injEq] at hown
  exact ⟨hname, node, hn, hown ▸ hcarried, hmade⟩

end Graph

namespace SourceModel

variable {model : SourceModel} {registry : ExtractorRegistry} {extracted : List Extracted}
  {listed : List (String × NodeDesc)} {names next : SourceNames} {graph result : Graph}
  {done : List SourceOutput} {output : SourceOutput}

/-! ### Inputs and operators -/

/-- The graph and the names of the model lead to the same nodes. -/
def NamesAgree (names : SourceNames) (graph : Graph) : Prop :=
  ∀ name, graph.idOf? name = names.get? name

/-- A name that is new in the model is free in the graph, so the node gets it. -/
theorem NamesAgree.enter (h : NamesAgree names graph) {item : String × NodeDesc}
    (hrun : (enter names item).run graph = .ok next result) : NamesAgree next result := by
  obtain ⟨made, middle, hdefine, hpure⟩ := run_bind_eq_ok.mp hrun
  cases hpure
  obtain ⟨hfree, rfl, rfl⟩ := run_define_eq_ok hdefine
  intro name
  rw [Graph.idOf?_insertNode_of_free ((h item.1).trans hfree), OrderedMap.get?_insert, h name]

/-- While inputs and operators are made no name is changed. -/
theorem succeedsIff_items_agree (listed : List (String × NodeDesc)) :
    SucceedsIff (listed.foldlM SourceModel.enter ∅) .empty (listed.map Prod.fst).Nodup
      fun names graph => Prepared listed names graph ∧ NamesAgree names graph :=
  (succeedsIff_foldlM
    (I := fun done names graph => Prepared done names graph ∧ NamesAgree names graph)
    (fun _ item _ _ _ _ h => (h.1.enter item).and_of_run fun _ _ => h.2.enter)
    ⟨.empty, fun _ => rfl⟩).of_iff (by simpa using inTurn_notMem_iff Prod.fst [] List.nodup_nil)

/-- Edges change no names. -/
theorem NamesAgree.edges (h : NamesAgree names graph) {edges : List SourceEdge} {value : PUnit}
    (hrun : (edges.forM (addEdge names)).run graph = .ok value result) :
    NamesAgree names result := by
  refine ensures_forM (P := NamesAgree names) (fun edge _ => ?_) graph value result h hrun
  refine ensures_bind (ensures_ofExcept (Q := fun _ => NamesAgree names) fun _ _ hP _ => hP)
    fun source => ?_
  refine ensures_bind (ensures_ofExcept (Q := fun _ => NamesAgree names) fun _ _ hP _ => hP)
    fun destination => ensures_discard ?_
  intro graph _ result h hrun
  obtain ⟨_, _, rfl⟩ := run_connect_eq_ok.mp hrun
  exact h

/-! ### Requested outputs -/

/-- Names of the graph while requested outputs are made. -/
structure Named (model : SourceModel) (done : List SourceOutput) (graph : Graph) : Prop where
  /-- Inputs and operators are found under their names. -/
  producers : ∀ name id, (name, id) ∈ model.producers → graph.idOf? name = some id
  /-- The name of an output leads to its marker, or else to a node of an earlier output. -/
  markers : ∀ position output, done[position]? = some output →
    graph.idOf? output.name = some (model.marker position) ∨
      ∃ earlier < position, graph.idOf? output.name = some (model.marker earlier) ∨
        graph.idOf? output.name = some (model.sink earlier)
  /-- The name of each graph output is made up. -/
  sinks : ∀ position output, done[position]? = some output →
    ∃ name, graph.idOf? name = some (model.sink position) ∧ output.MakesUp name

/-- A node that comes after inputs and operators belongs to some output. -/
theorem exists_position {id : NodeId} (hproducers : model.firstMarker ≤ id.index)
    (hlt : id.index < model.firstMarker + 2 * done.length) :
    ∃ earlier < done.length, id = model.marker earlier ∨ id = model.sink earlier := by
  refine ⟨(id.index - model.firstMarker) / 2, by omega, ?_⟩
  rcases Nat.mod_two_eq_zero_or_one (id.index - model.firstMarker) with heven | hodd
  · have hindex : id.index = model.firstMarker + 2 * ((id.index - model.firstMarker) / 2) := by
      omega
    exact .inl (congrArg NodeId.mk hindex)
  · have hindex : id.index = model.firstMarker + 2 * ((id.index - model.firstMarker) / 2) + 1 := by
      omega
    exact .inr (congrArg NodeId.mk hindex)

/-- A number below that of the first marker belongs to an input or operator. -/
theorem exists_producer {id : NodeId} (hlt : id.index < model.firstMarker) :
    ∃ name, (name, id) ∈ model.producers := by
  have hlength : id.index < (model.inputs.map (·.1) ++ model.operators.map (·.name)).length := by
    simpa [firstMarker] using hlt
  exact ⟨_, List.mem_map.mpr
    ⟨(_, id.index), List.mem_zipIdx_iff_getElem?.mpr (List.getElem?_eq_getElem hlength), rfl⟩⟩

/-- The two nodes of an output get names that were free, and the marker the requested one if it
is. -/
theorem Appended.idOf? (h : graph.Coherent) (happended : Appended names graph output next result) :
    (∀ name id, graph.idOf? name = some id → result.idOf? name = some id) ∧
      (graph.idOf? output.name = none → result.idOf? output.name = some ⟨graph.nextNode⟩) ∧
      ∃ name, result.idOf? name = some ⟨graph.nextNode + 1⟩ ∧ output.MakesUp name := by
  have hnamed := happended.coherent.registered.named
  have hnameOf : ∀ id, result.nameOf? id = (result.bare? id).map (·.name) := result.nameOf?_eq_bare?
  refine ⟨fun name id hname => ?_, fun hfree => ?_, ?_⟩
  · have hold := (h.registered.named name id).mp hname
    rw [Graph.nameOf?_eq_bare?] at hold
    obtain ⟨bare, hbare, hbareName⟩ := Option.map_eq_some_iff.mp hold
    rw [hnamed, hnameOf, happended.nodesStay h id bare hbare, Option.map_some, hbareName]
  · rw [hnamed, hnameOf, happended.bare, if_neg (by simp), if_pos rfl, Option.map_some]
    exact congrArg some (graph.freshName_of_free output.name hfree)
  · refine ⟨((graph.insertNode (markerDesc output)).newNode (sinkDesc output)).name, ?_, ?_⟩
    · rw [hnamed, hnameOf, happended.bare, if_pos rfl, Option.map_some]
    · exact (graph.insertNode (markerDesc output)).freshName_eq_or_suffixed s!"{output.name}/sink"

/-- One more output is named. -/
theorem Named.addOutput (hlength : extracted.length = model.operators.length)
    (hrequested : Requested model extracted done names graph) (h : Named model done graph)
    (hrun : (SourceModel.addOutput names output).run graph = .ok next result) :
    Named model (done ++ [output]) result := by
  have hcoherent := hrequested.drawn.coherent
  have happended := appended_of_run hcoherent hrun
  have hnext : graph.nextNode = model.firstMarker + 2 * done.length :=
    hrequested.drawn.nextNode.trans (length_drafts hlength done)
  have hmarker : model.marker done.length = ⟨graph.nextNode⟩ := by rw [hnext]; rfl
  have hsink : model.sink done.length = ⟨graph.nextNode + 1⟩ := by rw [hnext]; rfl
  obtain ⟨hstay, hfree, hmadeUp⟩ := happended.idOf? hcoherent
  refine ⟨fun name id hproducer => hstay name id (h.producers name id hproducer),
    fun position other hother => ?_, fun position other hother => ?_⟩
  · rcases getElem?_done_concat hother with hold | ⟨rfl, rfl⟩
    · rcases h.markers position other hold with hown | ⟨earlier, hlt, hheld⟩
      · exact .inl (hstay _ _ hown)
      · exact .inr ⟨earlier, hlt, hheld.imp (hstay _ _) (hstay _ _)⟩
    · cases htaken : graph.idOf? other.name with
      | none => exact .inl (hmarker ▸ hfree htaken)
      | some id =>
        -- Names of inputs and operators are known, so only an earlier output can have taken it.
        obtain ⟨node, hn, _⟩ := hcoherent.registered.exists_node_of_idOf? htaken
        have hlt : id.index < model.firstMarker + 2 * done.length :=
          hnext ▸ hcoherent.registered.lt_nextNode hn
        have hproducers : model.firstMarker ≤ id.index := by
          by_contra hbelow
          obtain ⟨name, hproducer⟩ := exists_producer (Nat.not_le.mp hbelow)
          have hsame := hcoherent.registered.idOf?_inj htaken (h.producers name id hproducer)
          have hknown : names.get? other.name = some id := by
            rw [OrderedMap.get?_eq_some_iff, hrequested.entries, hsame]
            exact List.mem_append_left _ hproducer
          rw [happended.names.1] at hknown
          cases hknown
        obtain ⟨earlier, hearlier, hheld⟩ := exists_position hproducers hlt
        refine .inr ⟨earlier, hearlier, hheld.imp (fun hid => ?_) fun hid => ?_⟩
        · exact hid ▸ hstay _ _ htaken
        · exact hid ▸ hstay _ _ htaken
  · rcases getElem?_done_concat hother with hold | ⟨rfl, rfl⟩
    · obtain ⟨name, hname, hmade⟩ := h.sinks position other hold
      exact ⟨name, hstay _ _ hname, hmade⟩
    · obtain ⟨name, hname, hmade⟩ := hmadeUp
      exact ⟨name, hsink ▸ hname, hmade⟩

/-- All outputs are named in order. -/
theorem Named.outputs (hlength : extracted.length = model.operators.length)
    (hrequested : Requested model extracted [] names graph) (h : Named model [] graph)
    (hrun : (model.outputs.foldlM SourceModel.addOutput names).run graph = .ok next result) :
    Named model model.outputs result :=
  ((succeedsIff_foldlM (I := fun done names graph =>
      Requested model extracted done names graph ∧ Named model done graph)
    (fun _ _ _ houtputs _ _ hdone => (hdone.1.addOutput hlength houtputs).and_of_run
      fun _ _ => hdone.2.addOutput hlength hdone.1) ⟨hrequested, h⟩).sound hrun).2.2

/-- A model whose operators were read is built with the names of its items. -/
theorem named_of_run_build (hlength : extracted.length = model.operators.length) {value : Unit}
    (hrun : (model.build extracted).run .empty = .ok value graph) :
    Named model model.outputs graph := by
  rw [build_eq] at hrun
  obtain ⟨names, prepared, hitems, hrun⟩ := run_bind_eq_ok.mp hrun
  obtain ⟨_, hprepared, hagree⟩ := (succeedsIff_items_agree _).sound hitems
  obtain ⟨_, connected, hedges, hrun⟩ := run_bind_eq_ok.mp hrun
  obtain ⟨last, houtputs⟩ := run_discard_eq_ok.mp hrun
  have hrequested := ((hprepared.succeedsIff_edges hlength).sound hedges).2
  refine Named.outputs hlength hrequested ⟨fun name id hproducer => ?_, ?_, ?_⟩ houtputs
  · rw [hagree.edges hedges name, OrderedMap.get?_eq_some_iff, hrequested.entries]
    exact List.mem_append_left _ hproducer
  · exact fun _ _ hnone => by cases hnone
  · exact fun _ _ hnone => by cases hnone

/-! ### All names -/

/-- If no output requests a name that is made up for an earlier one, all markers keep their names.
-/
theorem Named.idOf?_marker (h : Named model model.outputs graph) (hregistered : graph.Registered)
    (hnames : (model.outputs.map (·.name)).Nodup)
    (havoid : model.outputs.Pairwise fun earlier later => ¬ earlier.MakesUp later.name)
    (position : Nat) (houtput : model.outputs[position]? = some output) :
    graph.idOf? output.name = some (model.marker position) := by
  induction position using Nat.strongRecOn generalizing output with
  | ind position ih =>
    rcases h.markers position output houtput with hown | ⟨earlier, hlt, hheld⟩
    · exact hown
    · obtain ⟨hposition, hget⟩ := List.getElem?_eq_some_iff.mp houtput
      have hearlier : earlier < model.outputs.length := Nat.lt_trans hlt hposition
      have hother : model.outputs[earlier]? = some model.outputs[earlier] :=
        List.getElem?_eq_getElem hearlier
      exfalso
      rcases hheld with hmarker | hsink
      · have hsame := hregistered.idOf?_inj hmarker (ih earlier hlt hother)
        rw [List.Nodup, List.pairwise_map, List.pairwise_iff_getElem] at hnames
        exact hnames earlier position hearlier hposition hlt (hget ▸ hsame.symm)
      · obtain ⟨name, hname, hmade⟩ := h.sinks earlier _ hother
        have hsame := hregistered.idOf?_inj hsink hname
        rw [List.pairwise_iff_getElem] at havoid
        exact havoid earlier position hearlier hposition hlt (by rw [hget, hsame]; exact hmade)

/-- Inputs come first among the items. -/
theorem getElem?_drafts_input {index : Nat} {input : String × Shape}
    (hinput : model.inputs[index]? = some input) :
    (model.drafts extracted)[index]? = some (inputDesc input) := by
  have hlt := (List.getElem?_eq_some_iff.mp hinput).1
  rw [drafts, items, List.map_append, List.append_assoc,
    List.getElem?_append_left (by simpa using hlt)]
  simp [hinput]

/-- Operators follow the inputs. -/
theorem getElem?_drafts_operator {index : Nat} {operator : SourceOperator} {item : Extracted}
    (hoperator : model.operators[index]? = some operator) (hitem : extracted[index]? = some item) :
    (model.drafts extracted)[model.inputs.length + index]? = some (operatorDesc operator item) := by
  have hzip : (model.operators.zip extracted)[index]? = some (operator, item) :=
    List.getElem?_zip_eq_some.mpr ⟨hoperator, hitem⟩
  have hlt := (List.getElem?_eq_some_iff.mp hzip).1
  rw [drafts, items, List.map_append, List.append_assoc, List.getElem?_append_right (by simp),
    List.getElem?_append_left (by simpa using hlt)]
  simp [hzip]

/-- Every second description of the nodes of outputs is that of a marker. -/
theorem getElem?_outputDrafts (outputs : List SourceOutput) (position : Nat) :
    (outputDrafts outputs)[2 * position]? = outputs[position]?.map markerDesc := by
  induction outputs generalizing position with
  | nil => rfl
  | cons output rest ih =>
    cases position with
    | zero => rfl
    | succ position => exact ih position

theorem getElem?_drafts_marker (hlength : extracted.length = model.operators.length)
    {position : Nat}
    (houtput : model.outputs[position]? = some output) :
    (model.drafts extracted)[(model.marker position).index]? = some (markerDesc output) := by
  have hitems : ((model.items extracted).map Prod.snd).length = model.firstMarker := by
    rw [List.length_map, length_items hlength]
  have hle : ((model.items extracted).map Prod.snd).length ≤ (model.marker position).index :=
    hitems ▸ Nat.le_add_right _ _
  rw [drafts, List.getElem?_append_right hle, hitems, marker, Nat.add_sub_cancel_left,
    getElem?_outputDrafts, houtput, Option.map_some]

/-- After every successful import the names of inputs and operators lead to their nodes. The name of
an output leads to its marker, unless a node of an earlier output bears it. That does not happen
if no output requests a name that is made up for the graph output behind an earlier one. -/
theorem names_of_toGraph (himport : model.toGraph registry = .ok graph) :
    (∀ index input, model.inputs[index]? = some input →
      graph.Carries input.1 ⟨index⟩ (inputDesc input)) ∧
    (∀ index operator, model.operators[index]? = some operator →
      ∃ item, registry.extract model.format operator.operator operator.record = .ok item ∧
        graph.Carries operator.name ⟨model.inputs.length + index⟩ (operatorDesc operator item)) ∧
    (∀ position output, model.outputs[position]? = some output →
      graph.Carries output.name (model.marker position) (markerDesc output) ∨
        ∃ earlier < position, graph.idOf? output.name = some (model.marker earlier) ∨
          graph.idOf? output.name = some (model.sink earlier)) ∧
    ((model.outputs.Pairwise fun earlier later => ¬ earlier.MakesUp later.name) →
      ∀ position output, model.outputs[position]? = some output →
        graph.Carries output.name (model.marker position) (markerDesc output)) := by
  obtain ⟨extracted, hmap, hrun⟩ := toGraph_eq_ok_iff.mp himport
  have hreads : model.Reads registry extracted := Except.mapM_eq_ok_iff_forall₂.mp hmap
  have hlength := hreads.length_eq.symm
  obtain ⟨hwell, hdrawn⟩ := (succeedsIff_build hlength).sound hrun
  have hnamed := named_of_run_build hlength hrun
  have hproducer : ∀ (index : Nat) (name : String),
      (model.inputs.map (·.1) ++ model.operators.map (·.name))[index]? = some name →
        graph.idOf? name = some ⟨index⟩ := fun index name hname =>
    hnamed.producers name ⟨index⟩ (List.mem_map.mpr
      ⟨(name, index), List.mem_zipIdx_iff_getElem?.mpr hname, rfl⟩)
  refine ⟨fun index input hinput => ?_, fun index operator hoperator => ?_,
    fun position output houtput => ?_, fun havoid position output houtput => ?_⟩
  · have hlt := (List.getElem?_eq_some_iff.mp hinput).1
    refine hdrawn.carries (getElem?_drafts_input hinput) (hproducer index input.1 ?_)
    rw [List.getElem?_append_left (by simpa using hlt), List.getElem?_map, hinput, Option.map_some]
  · obtain ⟨item, hitem, hread⟩ := (Except.mapM_eq_ok_iff.mp hmap).2 index operator hoperator
    refine ⟨item, hread, hdrawn.carries (getElem?_drafts_operator hoperator hitem)
      (hproducer _ operator.name ?_)⟩
    rw [List.getElem?_append_right (by simp), List.length_map, Nat.add_sub_cancel_left,
      List.getElem?_map, hoperator, Option.map_some]
  · rcases hnamed.markers position output houtput with hown | hheld
    · exact .inl (hdrawn.carries (getElem?_drafts_marker hlength houtput) hown)
    · exact .inr hheld
  · have hnames := (List.nodup_append.mp hwell.names).2.1
    exact hdrawn.carries (getElem?_drafts_marker hlength houtput)
      (hnamed.idOf?_marker hdrawn.coherent.registered hnames havoid position houtput)

/-- The result of one operator is requested under two names. -/
def twoOutputs (first second : String) : SourceModel where
  format := .onnx
  inputs := [("x", [4])]
  operators := [{ name := "r", operator := "Relu", record := .empty, inputs := 1, outputs := 1 }]
  edges := [⟨"x", 0, "r", 0⟩]
  outputs := [⟨first, "r", 0⟩, ⟨second, "r", 0⟩]

/-- Both outputs keep their names if these have nothing to do with each other. -/
theorem names_of_toGraph_twoOutputs :
    ∃ graph, (twoOutputs "a" "b").toGraph .standard = .ok graph ∧
      graph.Carries "a" ⟨2⟩ (markerDesc ⟨"a", "r", 0⟩) ∧
        graph.Carries "b" ⟨4⟩ (markerDesc ⟨"b", "r", 0⟩) := by
  have hok : ((twoOutputs "a" "b").toGraph .standard).toOption.isSome = true := by decide +kernel
  cases himport : (twoOutputs "a" "b").toGraph .standard with
  | error error =>
    rw [himport] at hok
    cases hok
  | ok graph =>
    have havoid : ¬ SourceOutput.MakesUp ⟨"a", "r", 0⟩ "b" := by
      rintro (hsink | ⟨number, hsuffixed⟩)
      · exact absurd hsink (by decide)
      · have hletters := congrArg String.toList hsuffixed
        simp [Graph.suffixed, toString] at hletters
    have hmarkers := (names_of_toGraph himport).2.2.2
      (List.pairwise_pair.mpr havoid)
    exact ⟨graph, rfl, hmarkers 0 _ rfl, hmarkers 1 _ rfl⟩

/-- An output is requested under the name that is made up for the graph output behind the other
one. The name leads to that graph output, and the marker is called otherwise. -/
theorem idOf?_lost_twoOutputs :
    ∃ graph sink marker, (twoOutputs "a" "a/sink").toGraph .standard = .ok graph ∧
      graph.idOf? "a/sink" = some ⟨3⟩ ∧ graph.node? ⟨3⟩ = some sink ∧ sink.opType = "Result" ∧
        graph.node? ⟨4⟩ = some marker ∧ marker.opType = "FakeOutput" ∧
          marker.name = "a/sink_1" := by
  have hok : (match (twoOutputs "a" "a/sink").toGraph .standard with
      | .ok graph => decide (graph.idOf? "a/sink" = some ⟨3⟩ ∧
          (graph.node? ⟨3⟩).map (·.opType) = some "Result" ∧
          (graph.node? ⟨4⟩).map (fun node => (node.opType, node.name)) =
            some ("FakeOutput", "a/sink_1"))
      | .error _ => false) = true := by decide +kernel
  cases himport : (twoOutputs "a" "a/sink").toGraph .standard with
  | error error =>
    rw [himport] at hok
    cases hok
  | ok graph =>
    rw [himport] at hok
    obtain ⟨hname, hsink, hmarker⟩ := of_decide_eq_true hok
    obtain ⟨sink, hsinkNode, hsinkType⟩ := Option.map_eq_some_iff.mp hsink
    obtain ⟨marker, hmarkerNode, hmarkerEq⟩ := Option.map_eq_some_iff.mp hmarker
    obtain ⟨hmarkerType, hmarkerName⟩ := Prod.mk.inj hmarkerEq
    exact ⟨graph, sink, marker, rfl, hname, hsinkNode, hsinkType, hmarkerNode, hmarkerType,
      hmarkerName⟩

end SourceModel

end OpGraph
