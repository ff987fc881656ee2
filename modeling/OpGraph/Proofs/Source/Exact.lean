import OpGraph.Proofs.Graph.Drawn
import OpGraph.Proofs.Source.Import

/-!
# Import builds exactly what a model describes

A model describes a graph if all its names differ, its edges and outputs lead from ports that exist
and no two edges end at the same port. Import accepts a model exactly if its records can be read
and it describes a graph in this sense, and then builds that graph: nodes and connections in the
order of the model. Which names the nodes end up with is not said here.
-/

namespace OpGraph

open Edit

namespace SourceModel

/-! ### What a model describes -/

/-- What is asked of the node of an input. -/
def inputDesc (input : String × Shape) : NodeDesc :=
  { opType := "Parameter", attributes := .ofList [("shape", .ints input.2)], outputs := 1 }

/-- What is asked of the node of an operator that was read. -/
def operatorDesc (operator : SourceOperator) (item : Extracted) : NodeDesc :=
  { opType := item.opType
    attributes := item.attributes
    inputs := max operator.inputs item.inputs
    outputs := max operator.outputs item.outputs }

/-- Names of inputs and operators with what is asked of their nodes. -/
def items (model : SourceModel) (extracted : List Extracted) : List (String × NodeDesc) :=
  model.inputs.map (fun input => (input.1, inputDesc input)) ++
    (model.operators.zip extracted).map fun (operator, item) =>
      (operator.name, operatorDesc operator item)

/-- Name of an output with what is asked of its marker. -/
def markerItem (output : SourceOutput) : String × NodeDesc := (output.name, markerDesc output)

/-- What is asked of the nodes of outputs: for each a marker and a graph output. -/
def outputDrafts (outputs : List SourceOutput) : List NodeDesc :=
  outputs.flatMap fun output => [markerDesc output, sinkDesc output]

/-- What is asked of all nodes, in the order in which they are made. -/
def drafts (model : SourceModel) (extracted : List Extracted) : List NodeDesc :=
  (model.items extracted).map Prod.snd ++ outputDrafts model.outputs

/-- Connection that an edge asks for, if both of its names are known. -/
def edgeWire? (model : SourceModel) (edge : SourceEdge) : Option Connection := do
  let source ← model.nodeOf? edge.source
  let destination ← model.nodeOf? edge.destination
  return ⟨.output source edge.sourcePort, .input destination edge.destinationPort⟩

/-- Connections that outputs ask for: for each one to the marker, if the name of the requested node
is known, and one from the marker to the graph output. -/
def outputWires (model : SourceModel) (outputs : List SourceOutput) : List (Option Connection) :=
  outputs.zipIdx.flatMap fun (output, position) =>
    [(model.nodeOf? output.source).map fun source =>
        ⟨.output source output.sourcePort, .input (model.marker position) 0⟩,
      some ⟨.output (model.marker position) 0, .input (model.sink position) 0⟩]

/-- All connections that a model asks for, in the order in which they are made. -/
def wires (model : SourceModel) : List (Option Connection) :=
  model.edges.map model.edgeWire? ++ model.outputWires model.outputs

/-- An item of that name has an output port of that number. -/
def Delivers (listed : List (String × NodeDesc)) (name : String) (port : Nat) : Prop :=
  ∃ desc, (name, desc) ∈ listed ∧ port < desc.outputs

/-- An item of that name has an input port of that number. -/
def Receives (listed : List (String × NodeDesc)) (name : String) (port : Nat) : Prop :=
  ∃ desc, (name, desc) ∈ listed ∧ port < desc.inputs

/-- The extractors read the operators of the model, with one result for each. -/
def Reads (model : SourceModel) (registry : ExtractorRegistry) (extracted : List Extracted) : Prop :=
  List.Forall₂ (fun operator item =>
    registry.extract model.format operator.operator operator.record = .ok item)
    model.operators extracted

/-- The model describes a graph, given what was read from its operators. -/
structure WellFormed (model : SourceModel) (extracted : List Extracted) : Prop where
  /-- No name is used twice. -/
  names : (model.inputs.map (·.1) ++ model.operators.map (·.name) ++
    model.outputs.map (·.name)).Nodup
  /-- Edges lead from output ports to input ports of inputs and operators. -/
  edges : ∀ edge ∈ model.edges, Delivers (model.items extracted) edge.source edge.sourcePort ∧
    Receives (model.items extracted) edge.destination edge.destinationPort
  /-- No two edges end at the same port. -/
  destinations : (model.edges.map fun edge => (edge.destination, edge.destinationPort)).Nodup
  /-- Outputs are delivered by inputs, by operators or by earlier outputs. -/
  outputs : ∀ earlier output later, model.outputs = earlier ++ output :: later →
    Delivers (model.items extracted ++ earlier.map markerItem) output.source output.sourcePort

/-! ### Names and their nodes -/

section Names

variable {model : SourceModel} {extracted : List Extracted} {listed : List (String × NodeDesc)}
  {drafts : List NodeDesc} {names : SourceNames} {name other : String} {id : NodeId}

/-- Each name leads to the node that was asked for under this name. -/
structure Directory (listed : List (String × NodeDesc)) (drafts : List NodeDesc)
    (names : SourceNames) : Prop where
  /-- A name leads to a node that was asked for under this name. -/
  asked : ∀ name id, names.get? name = some id →
    ∃ desc, (name, desc) ∈ listed ∧ drafts[id.index]? = some desc
  /-- All names are entered. -/
  entered : ∀ name desc, (name, desc) ∈ listed →
    ∃ id, names.get? name = some id ∧ drafts[id.index]? = some desc

namespace Directory

theorem empty : Directory [] [] ∅ where
  asked _ _ h := by cases h
  entered _ _ h := by cases h

/-- A name is free if no item bears it. -/
theorem get?_eq_none_iff (h : Directory listed drafts names) :
    names.get? name = none ↔ name ∉ listed.map Prod.fst := by
  constructor
  · intro hfree hmem
    obtain ⟨⟨_, desc⟩, hlisted, rfl⟩ := List.mem_map.mp hmem
    obtain ⟨id, hid, _⟩ := h.entered _ desc hlisted
    rw [hfree] at hid
    cases hid
  · intro hnew
    by_contra hfound
    obtain ⟨id, hid⟩ := Option.ne_none_iff_exists'.mp hfound
    obtain ⟨desc, hlisted, _⟩ := h.asked name id hid
    exact hnew (List.mem_map.mpr ⟨(name, desc), hlisted, rfl⟩)

/-- A free name is entered with the next node; nodes without names may follow. -/
theorem insert (h : Directory listed drafts names) (hfree : names.get? name = none) (desc : NodeDesc)
    (more : List NodeDesc) :
    Directory (listed ++ [(name, desc)]) (drafts ++ desc :: more)
      (names.insert name ⟨drafts.length⟩) where
  asked other id hother := by
    rw [OrderedMap.get?_insert] at hother
    split at hother
    · rename_i hsame
      cases hother
      exact ⟨desc, by simp [hsame], by simp⟩
    · obtain ⟨found, hlisted, hdraft⟩ := h.asked other id hother
      have hlt := (List.getElem?_eq_some_iff.mp hdraft).1
      exact ⟨found, List.mem_append_left _ hlisted, by rw [List.getElem?_append_left hlt, hdraft]⟩
  entered other found hlisted := by
    rw [OrderedMap.get?_insert]
    rcases List.mem_append.mp hlisted with hold | hnew
    · obtain ⟨id, hid, hdraft⟩ := h.entered other found hold
      have hne : other ≠ name := by
        rintro rfl
        rw [hfree] at hid
        cases hid
      have hlt := (List.getElem?_eq_some_iff.mp hdraft).1
      exact ⟨id, by rw [if_neg hne, hid], by rw [List.getElem?_append_left hlt, hdraft]⟩
    · cases List.mem_singleton.mp hnew
      exact ⟨_, if_pos rfl, by simp⟩

/-- What an item has can be said of the node to which its name leads. -/
theorem exists_listed_iff (h : Directory listed drafts names) {R : NodeDesc → Prop} :
    (∃ desc, (name, desc) ∈ listed ∧ R desc) ↔
      ∃ id, names.resolve name = .ok id ∧ ∃ desc, drafts[id.index]? = some desc ∧ R desc := by
  simp only [resolve_eq_ok_iff]
  constructor
  · rintro ⟨desc, hlisted, hR⟩
    obtain ⟨id, hid, hdraft⟩ := h.entered name desc hlisted
    exact ⟨id, hid, desc, hdraft, hR⟩
  · rintro ⟨id, hid, desc, hdraft, hR⟩
    obtain ⟨found, hlisted, hfound⟩ := h.asked name id hid
    rw [hdraft, Option.some.injEq] at hfound
    exact ⟨desc, hfound ▸ hlisted, hR⟩

end Directory

/-- Names that were entered so far lead where all names of the model lead. -/
theorem nodeOf?_of_resolve {rest : List (String × NodeId)} (h : model.directory = names.toList ++ rest)
    (hname : names.resolve name = .ok id) : model.nodeOf? name = some id := by
  have hfound : names.toList.lookup name = some id := resolve_eq_ok_iff.mp hname
  rw [nodeOf?, h, List.lookup_append, hfound]
  rfl

/-- A name leads to the node of the input or operator at its place, or to the marker of its
output. -/
theorem place_of_nodeOf? (h : model.nodeOf? name = some id) :
    (∃ index, id = ⟨index⟩ ∧ index < model.firstMarker ∧
      (model.inputs.map (·.1) ++ model.operators.map (·.name))[index]? = some name) ∨
    ∃ position output, id = model.marker position ∧ model.outputs[position]? = some output ∧
      output.name = name := by
  obtain ⟨before, after, hsplit, _⟩ := List.lookup_eq_some_iff.mp h
  have hmem : (name, id) ∈ model.directory := by simp [hsplit]
  rcases List.mem_append.mp hmem with hproducer | hmarker
  · obtain ⟨⟨_, index⟩, hentry, heq⟩ := List.mem_map.mp hproducer
    cases heq
    have hget := List.mem_zipIdx_iff_getElem?.mp hentry
    have hlt := (List.getElem?_eq_some_iff.mp hget).1
    exact .inl ⟨index, rfl, by simpa [firstMarker] using hlt, hget⟩
  · obtain ⟨⟨output, position⟩, hentry, heq⟩ := List.mem_map.mp hmarker
    cases heq
    exact .inr ⟨position, output, rfl, List.mem_zipIdx_iff_getElem?.mp hentry, rfl⟩

/-- No two names of a model lead to the same node. -/
theorem nodeOf?_inj (hname : model.nodeOf? name = some id) (hother : model.nodeOf? other = some id) :
    name = other := by
  rcases place_of_nodeOf? hname with ⟨index, rfl, hlt, hget⟩ | ⟨position, output, rfl, hget, rfl⟩
  · rcases place_of_nodeOf? hother with ⟨index', heq, _, hget'⟩ | ⟨position, _, heq, _⟩
    · cases heq
      exact Option.some.inj (hget.symm.trans hget')
    · have hindex : index = model.firstMarker + 2 * position := congrArg NodeId.index heq
      omega
  · rcases place_of_nodeOf? hother with ⟨index, heq, hlt, _⟩ | ⟨position', output', heq, hget', rfl⟩
    · have hindex : model.firstMarker + 2 * position = index := congrArg NodeId.index heq
      omega
    · have hindex : model.firstMarker + 2 * position = model.firstMarker + 2 * position' :=
        congrArg NodeId.index heq
      have hposition : position = position' := by omega
      rw [hposition, hget', Option.some.injEq] at hget
      rw [hget]

end Names

/-! ### Inputs and operators -/

section Build

variable {model : SourceModel} {extracted : List Extracted} {listed : List (String × NodeDesc)}
  {drafts : List NodeDesc} {wires : List (Option Connection)} {names : SourceNames} {graph : Graph}

/-- Make the node of an item and enter its name. -/
def enter (names : SourceNames) (item : String × NodeDesc) : Edit SourceNames := do
  return (← define names item.1 item.2).2

/-- Inputs and operators are entered alike. -/
theorem build_eq (model : SourceModel) (extracted : List Extracted) :
    model.build extracted = (do
      let names ← (model.items extracted).foldlM enter ∅
      model.edges.forM (addEdge names)
      discard (model.outputs.foldlM addOutput names)) := by
  unfold items
  simp only [List.foldlM_append, List.foldlM_map, bind_assoc]
  rfl

/-- A name is entered exactly if it is free, with the node that is drawn next. -/
theorem succeedsIff_define (h : graph.Drawn drafts wires) (name : String) (desc : NodeDesc) :
    SucceedsIff (define names name desc) graph (names.get? name = none) fun made result =>
      made = (⟨drafts.length⟩, names.insert name ⟨drafts.length⟩) ∧
        result.Drawn (drafts ++ [desc]) wires where
  sound hrun := by
    obtain ⟨hfree, rfl, rfl⟩ := run_define_eq_ok hrun
    exact ⟨hfree, by rw [h.nextNode], h.insertNode desc (some name)⟩
  complete hfree := by
    have hdefine : names.define name ⟨graph.nextNode⟩ = .ok (names.insert name ⟨graph.nextNode⟩) := by
      rw [SourceNames.define, (names.contains_eq_false_iff name).mpr hfree]
      rfl
    exact ⟨_, _, run_bind_eq_ok.mpr ⟨⟨graph.nextNode⟩, _, rfl,
      run_ofExcept_bind_eq_ok.mpr ⟨_, hdefine, rfl⟩⟩⟩

/-- State of the import while inputs and operators are made. -/
structure Prepared (listed : List (String × NodeDesc)) (names : SourceNames) (graph : Graph) :
    Prop where
  /-- There is one node for each item so far. -/
  drawn : graph.Drawn (listed.map Prod.snd) []
  /-- The names of the items lead to their nodes. -/
  directory : Directory listed (listed.map Prod.snd) names
  /-- Names stand with their numbers. -/
  entries : names.toList = (listed.map Prod.fst).zipIdx.map fun (name, index) => (name, ⟨index⟩)

theorem Prepared.empty : Prepared [] ∅ .empty := ⟨.empty, .empty, rfl⟩

/-- One more item is entered exactly if its name is new. -/
theorem Prepared.enter (h : Prepared listed names graph) (item : String × NodeDesc) :
    SucceedsIff (enter names item) graph (item.1 ∉ listed.map Prod.fst)
      (Prepared (listed ++ [item])) := by
  refine ((succeedsIff_define h.drawn item.1 item.2).bind fun made result hfree hmade =>
    succeedsIff_pure ?_).of_iff ((and_iff_left trivial).trans h.directory.get?_eq_none_iff)
  obtain ⟨rfl, hdrawn⟩ := hmade
  refine ⟨?_, ?_, ?_⟩
  · simpa using hdrawn
  · simpa using h.directory.insert hfree item.2 []
  · rw [OrderedMap.toList_insert_of_absent hfree, h.entries]
    simp [List.zipIdx_append]

/-- Inputs and operators are made exactly if their names differ. -/
theorem succeedsIff_items (listed : List (String × NodeDesc)) :
    SucceedsIff (listed.foldlM SourceModel.enter ∅) .empty (listed.map Prod.fst).Nodup
      (Prepared listed) :=
  (succeedsIff_foldlM (fun _ item _ _ _ _ h => h.enter item) Prepared.empty).of_iff
    (by simpa using inTurn_notMem_iff Prod.fst [] List.nodup_nil)

/-! ### Edges -/

/-- What an edge asks for ends at the node of its destination. -/
theorem destination_of_edgeWire? {edge : SourceEdge} {connection : Connection}
    (h : model.edgeWire? edge = some connection) :
    ∃ id, model.nodeOf? edge.destination = some id ∧
      connection.destination = .input id edge.destinationPort := by
  obtain ⟨source, _, h⟩ := Option.bind_eq_some_iff.mp h
  obtain ⟨destination, hdestination, h⟩ := Option.bind_eq_some_iff.mp h
  cases h
  exact ⟨destination, hdestination, rfl⟩

/-- A port is not yet fed exactly if no earlier edge ends there. -/
theorem free_iff {earlier : List SourceEdge} {name : String} {id : NodeId} {port : Nat}
    (h : graph.Drawn drafts (earlier.map model.edgeWire?)) (hname : model.nodeOf? name = some id) :
    (∀ connection, some connection ∈ earlier.map model.edgeWire? →
        connection.destination ≠ .input id port) ↔
      (name, port) ∉ earlier.map fun edge => (edge.destination, edge.destinationPort) := by
  constructor
  · intro hfree hmem
    obtain ⟨edge, hedge, hends⟩ := List.mem_map.mp hmem
    cases hends
    have hwire := List.mem_map_of_mem (f := model.edgeWire?) hedge
    obtain ⟨_, connection, hconnection, _⟩ := h.mem_wires_iff.mp hwire
    obtain ⟨other, hother, hdestination⟩ := destination_of_edgeWire? hconnection
    rw [hname, Option.some.injEq] at hother
    exact hfree connection (hconnection ▸ hwire) (hother ▸ hdestination)
  · intro hnew connection hmem hends
    obtain ⟨edge, hedge, hconnection⟩ := List.mem_map.mp hmem
    obtain ⟨other, hother, hdestination⟩ := destination_of_edgeWire? hconnection
    rw [hends] at hdestination
    cases hdestination
    exact hnew (List.mem_map.mpr ⟨edge, hedge, by rw [nodeOf?_inj hname hother]⟩)

/-- An edge is drawn exactly if its ports exist and no earlier edge ends at the same port. -/
theorem succeedsIff_addEdge {earlier : List SourceEdge} {rest : List (String × NodeId)}
    (hentries : model.directory = names.toList ++ rest) (hdirectory : Directory listed drafts names)
    (h : graph.Drawn drafts (earlier.map model.edgeWire?)) (edge : SourceEdge) :
    SucceedsIff (addEdge names edge) graph
      ((Delivers listed edge.source edge.sourcePort ∧
          Receives listed edge.destination edge.destinationPort) ∧
        (edge.destination, edge.destinationPort) ∉
          earlier.map fun other => (other.destination, other.destinationPort))
      fun _ result => result.Drawn drafts ((earlier ++ [edge]).map model.edgeWire?) := by
  refine (succeedsIff_ofExcept_bind fun source hsource => succeedsIff_ofExcept_bind
    fun destination hdestination => ((h.succeedsIff_connect _ _).of_iff
      h.checkConnect_eq_ok_iff).mono fun _ result hdrawn => ?_).of_iff ?_
  · have hwire : model.edgeWire? edge =
        some ⟨.output source edge.sourcePort, .input destination edge.destinationPort⟩ := by
      simp [edgeWire?, nodeOf?_of_resolve hentries hsource, nodeOf?_of_resolve hentries hdestination]
    rw [List.map_append, List.map_singleton, hwire]
    exact hdrawn
  · rw [Delivers, Receives, hdirectory.exists_listed_iff, hdirectory.exists_listed_iff]
    constructor
    · rintro ⟨source, hsource, destination, hdestination, hdelivers, hreceives, hfree⟩
      exact ⟨⟨⟨source, hsource, hdelivers⟩, destination, hdestination, hreceives⟩,
        (free_iff h (nodeOf?_of_resolve hentries hdestination)).mp hfree⟩
    · rintro ⟨⟨⟨source, hsource, hdelivers⟩, destination, hdestination, hreceives⟩, hnew⟩
      exact ⟨source, hsource, destination, hdestination, hdelivers, hreceives,
        (free_iff h (nodeOf?_of_resolve hentries hdestination)).mpr hnew⟩

/-- All edges are drawn exactly if their ports exist and no two end at the same one. -/
theorem succeedsIff_edges {rest : List (String × NodeId)}
    (hentries : model.directory = names.toList ++ rest) (hdirectory : Directory listed drafts names)
    (h : graph.Drawn drafts []) :
    SucceedsIff (model.edges.forM (addEdge names)) graph
      ((∀ edge ∈ model.edges, Delivers listed edge.source edge.sourcePort ∧
          Receives listed edge.destination edge.destinationPort) ∧
        (model.edges.map fun edge => (edge.destination, edge.destinationPort)).Nodup)
      fun _ result => result.Drawn drafts (model.edges.map model.edgeWire?) := by
  refine (succeedsIff_forM (I := fun done result => result.Drawn drafts (done.map model.edgeWire?))
    (fun _ edge _ _ _ hdrawn => succeedsIff_addEdge hentries hdirectory hdrawn edge) h).of_iff ?_
  rw [inTurn_and, inTurn_iff_forall_mem]
  exact and_congr_right fun _ => by
    simpa using inTurn_notMem_iff (fun edge : SourceEdge => (edge.destination, edge.destinationPort))
      [] List.nodup_nil

/-! ### Requested outputs -/

/-- Names of inputs, operators and some outputs with their nodes. -/
def entries (model : SourceModel) (outputs : List SourceOutput) : List (String × NodeId) :=
  model.producers ++ outputs.zipIdx.map fun (output, position) =>
    (output.name, model.marker position)

/-- State of the import while requested outputs are made. -/
structure Requested (model : SourceModel) (extracted : List Extracted) (done : List SourceOutput)
    (names : SourceNames) (graph : Graph) : Prop where
  /-- There are two more nodes and two more connections for each output so far. -/
  drawn : graph.Drawn ((model.items extracted).map Prod.snd ++ outputDrafts done)
    (model.edges.map model.edgeWire? ++ model.outputWires done)
  /-- The names of all items lead to their nodes. -/
  directory : Directory (model.items extracted ++ done.map markerItem)
    ((model.items extracted).map Prod.snd ++ outputDrafts done) names
  /-- Names stand with their nodes. -/
  entries : names.toList = model.entries done

theorem length_outputDrafts (outputs : List SourceOutput) :
    (outputDrafts outputs).length = 2 * outputs.length := by
  induction outputs with
  | nil => rfl
  | cons output rest ih =>
    change (outputDrafts rest).length + 1 + 1 = _
    rw [ih, List.length_cons]
    omega

/-- The names of inputs and operators in the order of the model. -/
theorem map_fst_items (hlength : extracted.length = model.operators.length) :
    (model.items extracted).map Prod.fst =
      model.inputs.map (·.1) ++ model.operators.map (·.name) := by
  rw [items, List.map_append, List.map_map, List.map_map, ← map_name_zip hlength]
  rfl

/-- Inputs and operators ask for one node each and come before the nodes of the outputs. -/
theorem length_items (hlength : extracted.length = model.operators.length) :
    (model.items extracted).length = model.firstMarker := by
  have hitems := congrArg List.length (map_fst_items hlength)
  simpa [firstMarker] using hitems

/-- Number of nodes that are asked for up to some output. -/
theorem length_drafts (hlength : extracted.length = model.operators.length)
    (done : List SourceOutput) :
    ((model.items extracted).map Prod.snd ++ outputDrafts done).length =
      model.firstMarker + 2 * done.length := by
  rw [List.length_append, length_outputDrafts, List.length_map, length_items hlength]

/-- Two new nodes, of which the first is fed by a node that was there, can be connected exactly if
the port of that node exists. -/
theorem checkConnect_marker_iff {sunk : Graph} {output : SourceOutput} {source : NodeId} {port : Nat}
    (h : graph.Drawn drafts wires) (hsource : source.index < drafts.length)
    (hsunk : sunk.Drawn (drafts ++ [markerDesc output] ++ [sinkDesc output]) wires) :
    sunk.checkConnect (.output source port) (.input ⟨drafts.length⟩ 0) = .ok () ↔
      ∃ desc, drafts[source.index]? = some desc ∧ port < desc.outputs := by
  rw [hsunk.checkConnect_eq_ok_iff, List.append_assoc, List.getElem?_append_left hsource]
  refine and_iff_left ⟨⟨markerDesc output, by simp, Nat.zero_lt_one⟩, fun connection hmem hends => ?_⟩
  have hlt := h.lt_length_of_mem hmem
  rw [hends] at hlt
  exact Nat.lt_irrefl _ hlt

/-- A new marker can always be connected to a new graph output. -/
theorem checkConnect_sink {requested : Graph} {output : SourceOutput} {source : PortRef}
    (h : graph.Drawn drafts wires)
    (hrequested : requested.Drawn (drafts ++ [markerDesc output] ++ [sinkDesc output])
      (wires ++ [some ⟨source, .input ⟨drafts.length⟩ 0⟩])) :
    requested.checkConnect (.output ⟨drafts.length⟩ 0) (.input ⟨drafts.length + 1⟩ 0) = .ok () := by
  rw [hrequested.checkConnect_eq_ok_iff, List.append_assoc]
  refine ⟨⟨markerDesc output, by simp, Nat.zero_lt_one⟩,
    ⟨sinkDesc output, by simp, Nat.zero_lt_one⟩, fun connection hmem hends => ?_⟩
  rcases List.mem_append.mp hmem with hold | hnew
  · have hlt := h.lt_length_of_mem hold
    rw [hends] at hlt
    exact Nat.not_succ_lt_self hlt
  · cases List.mem_singleton.mp hnew
    exact absurd (congrArg (·.node.index) hends) (Nat.ne_of_lt (Nat.lt_succ_self _))

/-- One more output is made exactly if its name is new and its source has the port. -/
theorem succeedsIff_addOutput (h : graph.Drawn drafts wires)
    (hdirectory : Directory listed drafts names) (output : SourceOutput) :
    SucceedsIff (addOutput names output) graph
      (output.name ∉ listed.map Prod.fst ∧ Delivers listed output.source output.sourcePort)
      fun next result => names.get? output.name = none ∧
        next = names.insert output.name ⟨drafts.length⟩ ∧
        ∃ source, names.resolve output.source = .ok source ∧
          result.Drawn (drafts ++ [markerDesc output, sinkDesc output])
            (wires ++ [some ⟨.output source output.sourcePort, .input ⟨drafts.length⟩ 0⟩,
              some ⟨.output ⟨drafts.length⟩ 0, .input ⟨drafts.length + 1⟩ 0⟩]) := by
  refine (succeedsIff_ofExcept_bind (D := fun source => names.get? output.name = none ∧
    ∃ desc, drafts[source.index]? = some desc ∧ output.sourcePort < desc.outputs)
    fun source hsource => ?_).of_iff ?_
  · have hlt : source.index < drafts.length := by
      obtain ⟨_, _, hdraft⟩ := hdirectory.asked _ _ (resolve_eq_ok_iff.mp hsource)
      exact (List.getElem?_eq_some_iff.mp hdraft).1
    refine (succeedsIff_define h output.name (markerDesc output)).bind
      fun made marked hfree hmade => ?_
    obtain ⟨rfl, hmarked⟩ := hmade
    refine ((hmarked.succeedsIff_addNode (sinkDesc output) (some s!"{output.name}/sink")).bind
      fun sink sunk _ hsink => ?_).of_iff (and_iff_right trivial)
    obtain ⟨rfl, hsunk⟩ := hsink
    rw [List.length_append, List.length_singleton]
    refine (((hsunk.succeedsIff_connect _ _).of_iff (checkConnect_marker_iff h hlt hsunk)).bind
      fun _ requested _ hrequested => ?_).of_iff (and_iff_left trivial)
    refine ((hrequested.succeedsIff_connect _ _).bind fun _ result _ hresult => succeedsIff_pure
      ⟨hfree, rfl, source, hsource, ?_⟩).of_iff
      (iff_of_true ⟨checkConnect_sink h hrequested, trivial⟩ trivial)
    simpa using hresult
  · rw [Delivers, hdirectory.exists_listed_iff, ← hdirectory.get?_eq_none_iff]
    constructor
    · rintro ⟨source, hsource, hfree, hdelivers⟩
      exact ⟨hfree, source, hsource, hdelivers⟩
    · rintro ⟨hfree, source, hsource, hdelivers⟩
      exact ⟨source, hsource, hfree, hdelivers⟩

/-- The names entered before an output are those with which the directory starts. -/
theorem exists_directory_eq {earlier later : List SourceOutput}
    (houtputs : model.outputs = earlier ++ later) :
    ∃ rest, model.directory = model.entries earlier ++ rest := by
  refine ⟨(later.zipIdx earlier.length).map fun (output, position) =>
    (output.name, model.marker position), ?_⟩
  rw [directory, houtputs, List.zipIdx_append, List.map_append, entries, List.append_assoc,
    Nat.zero_add]

/-- Once inputs and operators are made, edges are drawn exactly under their conditions, and no output
is requested yet. -/
theorem Prepared.succeedsIff_edges (hlength : extracted.length = model.operators.length)
    (h : Prepared (model.items extracted) names graph) :
    SucceedsIff (model.edges.forM (addEdge names)) graph
      ((∀ edge ∈ model.edges, Delivers (model.items extracted) edge.source edge.sourcePort ∧
          Receives (model.items extracted) edge.destination edge.destinationPort) ∧
        (model.edges.map fun edge => (edge.destination, edge.destinationPort)).Nodup)
      fun _ => Requested model extracted [] names := by
  have hentries : names.toList = model.entries [] := by
    rw [h.entries, map_fst_items hlength]
    simp [SourceModel.entries, producers]
  obtain ⟨rest, hrest⟩ : ∃ rest, model.directory = model.entries [] ++ rest :=
    exists_directory_eq rfl
  refine (SourceModel.succeedsIff_edges (hentries ▸ hrest) h.directory h.drawn).mono
    fun _ connected hconnected => ⟨?_, ?_, hentries⟩
  · simpa [outputDrafts, outputWires] using hconnected
  · simpa [outputDrafts] using h.directory

/-- One more output is made exactly if its name is new and its source has the port. -/
theorem Requested.addOutput (hlength : extracted.length = model.operators.length)
    {earlier later : List SourceOutput} {output : SourceOutput}
    (houtputs : model.outputs = earlier ++ output :: later)
    (h : Requested model extracted earlier names graph) :
    SucceedsIff (SourceModel.addOutput names output) graph
      (output.name ∉ (model.items extracted ++ earlier.map markerItem).map Prod.fst ∧
        Delivers (model.items extracted ++ earlier.map markerItem) output.source output.sourcePort)
      (Requested model extracted (earlier ++ [output])) := by
  refine (succeedsIff_addOutput h.drawn h.directory output).mono fun next result hresult => ?_
  obtain ⟨hfree, hnext, source, hsource, hdrawn⟩ := hresult
  obtain ⟨rest, hrest⟩ := exists_directory_eq houtputs
  have hsource : model.nodeOf? output.source = some source :=
    nodeOf?_of_resolve (h.entries ▸ hrest) hsource
  have hnumber := length_drafts hlength earlier
  refine ⟨?_, ?_, ?_⟩
  · have hdrafts : outputDrafts (earlier ++ [output]) =
        outputDrafts earlier ++ [markerDesc output, sinkDesc output] := by simp [outputDrafts]
    have hwires : model.outputWires (earlier ++ [output]) = model.outputWires earlier ++
        [some ⟨.output source output.sourcePort, .input (model.marker earlier.length) 0⟩,
          some ⟨.output (model.marker earlier.length) 0, .input (model.sink earlier.length) 0⟩] := by
      simp [outputWires, List.zipIdx_append, hsource]
    rw [hnumber] at hdrawn
    rw [hdrafts, hwires, ← List.append_assoc, ← List.append_assoc]
    exact hdrawn
  · have hdirectory := h.directory.insert hfree (markerDesc output) [sinkDesc output]
    rw [hnext]
    simpa [outputDrafts, markerItem] using hdirectory
  · rw [hnext, OrderedMap.toList_insert_of_absent hfree, h.entries, hnumber]
    simp [SourceModel.entries, List.zipIdx_append, marker]

/-- All outputs are made exactly if their names are new and their sources have the ports. -/
theorem succeedsIff_outputs (hlength : extracted.length = model.operators.length)
    (h : Requested model extracted [] names graph) :
    SucceedsIff (model.outputs.foldlM SourceModel.addOutput names) graph
      (InTurn (fun earlier output =>
        output.name ∉ (model.items extracted ++ earlier.map markerItem).map Prod.fst ∧
          Delivers (model.items extracted ++ earlier.map markerItem) output.source output.sourcePort)
        model.outputs)
      (Requested model extracted model.outputs) :=
  succeedsIff_foldlM (fun _ _ _ houtputs _ _ hdone => hdone.addOutput hlength houtputs) h

/-! ### The import as a whole -/

/-- A model is well-formed if its items, its edges and its outputs meet their conditions in turn. -/
theorem wellFormed_iff (hlength : extracted.length = model.operators.length) :
    model.WellFormed extracted ↔ ((model.items extracted).map Prod.fst).Nodup ∧
      ((∀ edge ∈ model.edges, Delivers (model.items extracted) edge.source edge.sourcePort ∧
          Receives (model.items extracted) edge.destination edge.destinationPort) ∧
        (model.edges.map fun edge => (edge.destination, edge.destinationPort)).Nodup) ∧
      InTurn (fun earlier output =>
        output.name ∉ (model.items extracted ++ earlier.map markerItem).map Prod.fst ∧
          Delivers (model.items extracted ++ earlier.map markerItem) output.source output.sourcePort)
        model.outputs := by
  have hnames (hnodup : ((model.items extracted).map Prod.fst).Nodup) :
      InTurn (fun earlier output =>
        output.name ∉ (model.items extracted ++ earlier.map markerItem).map Prod.fst) model.outputs ↔
      (model.inputs.map (·.1) ++ model.operators.map (·.name) ++ model.outputs.map (·.name)).Nodup := by
    rw [← map_fst_items hlength, ← inTurn_notMem_iff SourceOutput.name _ hnodup]
    simp only [List.map_append, List.map_map]
    rfl
  rw [inTurn_and]
  constructor
  · intro h
    have hnodup : ((model.items extracted).map Prod.fst).Nodup :=
      map_fst_items hlength ▸ (List.nodup_append.mp h.names).1
    exact ⟨hnodup, ⟨h.edges, h.destinations⟩, (hnames hnodup).mpr h.names, h.outputs⟩
  · rintro ⟨hnodup, ⟨hedges, hdestinations⟩, hnew, houtputs⟩
    exact ⟨(hnames hnodup).mp hnew, hedges, hdestinations, houtputs⟩

/-- A model whose operators were read is built exactly if it is well-formed, as it describes. -/
theorem succeedsIff_build (hlength : extracted.length = model.operators.length) :
    SucceedsIff (model.build extracted) .empty (model.WellFormed extracted) fun _ graph =>
      graph.Drawn (model.drafts extracted) model.wires := by
  rw [build_eq, wellFormed_iff hlength]
  refine (succeedsIff_items (model.items extracted)).bind fun names prepared _ hprepared => ?_
  refine (hprepared.succeedsIff_edges hlength).bind fun _ connected _ hconnected => ?_
  refine (succeedsIff_outputs hlength hconnected).discard.mono fun _ _ hresult => ?_
  obtain ⟨_, hdone⟩ := hresult
  exact hdone.drawn

end Build

/-- Import accepts a model exactly if all its operators are read and the model is well-formed. The
graph that it builds is the one that the model describes: its nodes are made from inputs,
operators and outputs, its connections from edges and outputs, all in the order of the model. -/
theorem toGraph_exact (model : SourceModel) (registry : ExtractorRegistry) :
    ((∃ graph, model.toGraph registry = .ok graph) ↔
      ∃ extracted, model.Reads registry extracted ∧ model.WellFormed extracted) ∧
    ∀ graph, model.toGraph registry = .ok graph →
      ∃ extracted, model.Reads registry extracted ∧ model.WellFormed extracted ∧
        graph.Drawn (model.drafts extracted) model.wires := by
  have hsound : ∀ graph, model.toGraph registry = .ok graph →
      ∃ extracted, model.Reads registry extracted ∧ model.WellFormed extracted ∧
        graph.Drawn (model.drafts extracted) model.wires := by
    intro graph hgraph
    obtain ⟨extracted, hmap, hrun⟩ := toGraph_eq_ok_iff.mp hgraph
    have hreads : model.Reads registry extracted := Except.mapM_eq_ok_iff_forall₂.mp hmap
    obtain ⟨hwell, hdrawn⟩ := (succeedsIff_build hreads.length_eq.symm).sound hrun
    exact ⟨extracted, hreads, hwell, hdrawn⟩
  refine ⟨⟨fun ⟨graph, hgraph⟩ => ?_, ?_⟩, hsound⟩
  · obtain ⟨extracted, hreads, hwell, _⟩ := hsound graph hgraph
    exact ⟨extracted, hreads, hwell⟩
  · rintro ⟨extracted, hreads, hwell⟩
    obtain ⟨_, graph, hrun⟩ := (succeedsIff_build hreads.length_eq.symm).complete hwell
    exact ⟨graph, toGraph_eq_ok_iff.mpr ⟨extracted, Except.mapM_eq_ok_iff_forall₂.mpr hreads, hrun⟩⟩

end SourceModel

end OpGraph
