import OpGraph.Proofs.Edit.Changes
import OpGraph.Proofs.Graph.Feed

/-!
# What an imported graph looks like

Inputs and operators of a model take the first numbers, in the order of the model. Each
requested output takes two more, one for its marker and one for the graph output behind it. The
marker is fed by the requested tensor and feeds the graph output.
-/

namespace OpGraph

open Edit

namespace SourceModel

variable {graph result : Graph} {names next : SourceNames} {registry : ExtractorRegistry}
  {model : SourceModel} {extracted : List Extracted}

/-- Number of the first marker: all inputs and operators come before. -/
def firstMarker (model : SourceModel) : Nat := model.inputs.length + model.operators.length

/-- Marker of the requested output at a position. -/
def marker (model : SourceModel) (position : Nat) : NodeId := ⟨model.firstMarker + 2 * position⟩

/-- Graph output of the requested output at a position. -/
def sink (model : SourceModel) (position : Nat) : NodeId := ⟨model.firstMarker + 2 * position + 1⟩

/-- Names of the inputs and operators with the nodes that they get. -/
def producers (model : SourceModel) : List (String × NodeId) :=
  (model.inputs.map (·.1) ++ model.operators.map (·.name)).zipIdx.map fun (name, index) =>
    (name, ⟨index⟩)

/-- Names of all items with the nodes that they get. -/
def directory (model : SourceModel) : List (String × NodeId) :=
  model.producers ++ model.outputs.zipIdx.map fun (output, position) =>
    (output.name, model.marker position)

/-- Node that an item of the model gets, by its name. -/
def nodeOf? (model : SourceModel) (name : String) : Option NodeId := model.directory.lookup name

/-- What the nodes of an imported graph are made from. -/
inductive Described (extracted : List Extracted) (desc : NodeDesc) : Prop where
  /-- An input of the model. -/
  | input (opType : desc.opType = "Parameter") (outputs : desc.outputs = 1)
  /-- An operator that was read. -/
  | operator (item : Extracted) (mem : item ∈ extracted) (opType : desc.opType = item.opType)
      (attributes : desc.attributes = item.attributes) (inputs : item.inputs ≤ desc.inputs)
      (outputs : item.outputs ≤ desc.outputs)
  /-- A marker. -/
  | marker (opType : desc.opType = "FakeOutput") (inputs : desc.inputs = 1)
      (outputs : desc.outputs = 1)
  /-- A graph output. -/
  | sink (opType : desc.opType = "Result") (inputs : desc.inputs = 1) (outputs : desc.outputs = 0)

/-- Every node of the graph is as it was made. -/
def Fresh (extracted : List Extracted) (graph : Graph) : Prop :=
  ∀ id bare, graph.bare? id = some bare →
    ∃ earlier desc, Described extracted desc ∧ bare = Graph.newNode earlier desc

/-! ### Single steps -/

theorem Fresh.insertNode (h : Fresh extracted graph) {desc : NodeDesc}
    (hdesc : Described extracted desc) : Fresh extracted (graph.insertNode desc) := by
  intro id bare hbare
  rw [Graph.bare?_insertNode] at hbare
  split at hbare
  · cases hbare
    exact ⟨graph, desc, hdesc, rfl⟩
  · exact h id bare hbare

theorem Fresh.insertConnection (h : Fresh extracted graph) (source destination : PortRef) :
    Fresh extracted (graph.insertConnection source destination) := by
  intro id bare hbare
  rw [Graph.bare?_insertConnection] at hbare
  exact h id bare hbare

/-- A name is entered with the next number, and a node is made under that number. -/
theorem run_define_eq_ok {name : String} {desc : NodeDesc} {made : NodeId × SourceNames}
    (hrun : (define names name desc).run graph = .ok made result) :
    names.get? name = none ∧ made = (⟨graph.nextNode⟩, names.insert name ⟨graph.nextNode⟩) ∧
      result = graph.insertNode { desc with name := some name } := by
  unfold define at hrun
  obtain ⟨id, _, hadd, hrun⟩ := run_bind_eq_ok.mp hrun
  cases hadd
  obtain ⟨names', hdefine, hrun⟩ := run_ofExcept_bind_eq_ok.mp hrun
  cases hrun
  unfold SourceNames.define at hdefine
  cases hcontains : names.contains name with
  | true => simp [hcontains] at hdefine
  | false =>
    simp only [hcontains, Bool.false_eq_true, if_false, Except.ok.injEq] at hdefine
    exact ⟨(names.contains_eq_false_iff name).mp hcontains, by rw [← hdefine], rfl⟩

/-- A name resolves to the node under which it was entered. -/
theorem resolve_eq_ok_iff {name : String} {id : NodeId} :
    names.resolve name = .ok id ↔ names.get? name = some id := by
  unfold SourceNames.resolve
  cases names.get? name <;> simp

/-! ### Inputs and operators -/

/-- State of the import while inputs and operators are made: the nodes bear the numbers of the
names entered so far. -/
structure Entered (extracted : List Extracted) (entries : List String) (names : SourceNames)
    (graph : Graph) : Prop where
  /-- The records agree. -/
  coherent : graph.Coherent
  /-- Nodes are as they were made. -/
  fresh : Fresh extracted graph
  /-- No marker has been made. -/
  unmarked : ∀ id bare, graph.bare? id = some bare → bare.opType ≠ "FakeOutput"
  /-- Names stand with their numbers. -/
  names : names.toList = entries.zipIdx.map fun (name, index) => (name, ⟨index⟩)
  /-- There are as many nodes as names. -/
  nextNode : graph.nextNode = entries.length

theorem Entered.empty (extracted : List Extracted) : Entered extracted [] ∅ .empty where
  coherent := .empty
  fresh _ _ h := by cases h
  unmarked _ _ h := by cases h
  names := rfl
  nextNode := rfl

/-- One more name is entered. -/
theorem Entered.define {entries : List String} (h : Entered extracted entries names graph)
    (name : String) (desc : NodeDesc) (hdesc : Described extracted desc)
    (htype : desc.opType ≠ "FakeOutput") (hfree : names.get? name = none) :
    Entered extracted (entries ++ [name]) (names.insert name ⟨graph.nextNode⟩)
      (graph.insertNode { desc with name := some name }) where
  coherent := h.coherent.change (.insertNode _)
  fresh := h.fresh.insertNode (by
    cases hdesc with
    | input opType outputs => exact .input opType outputs
    | operator item mem opType attributes inputs outputs =>
      exact .operator item mem opType attributes inputs outputs
    | marker opType inputs outputs => exact .marker opType inputs outputs
    | sink opType inputs outputs => exact .sink opType inputs outputs)
  unmarked id bare hbare := by
    rw [Graph.bare?_insertNode] at hbare
    split at hbare
    · cases hbare
      exact htype
    · exact h.unmarked id bare hbare
  names := by
    rw [OrderedMap.toList_insert_of_absent hfree, h.names, h.nextNode]
    simp [List.zipIdx_append]
  nextNode := by
    change graph.nextNode + 1 = _
    rw [h.nextNode]
    simp

/-- All inputs are entered in order. -/
theorem entered_inputs {inputs : List (String × Shape)} {entries : List String}
    (h : Entered extracted entries names graph)
    (hrun : (inputs.foldlM addInput names).run graph = .ok next result) :
    Entered extracted (entries ++ inputs.map (·.1)) next result := by
  induction inputs generalizing names graph entries with
  | nil =>
    cases hrun
    simpa using h
  | cons input rest ih =>
    rw [List.foldlM_cons] at hrun
    obtain ⟨middle, between, hhead, htail⟩ := run_bind_eq_ok.mp hrun
    unfold addInput at hhead
    obtain ⟨made, _, hdefine, hpure⟩ := run_bind_eq_ok.mp hhead
    cases hpure
    obtain ⟨hfree, rfl, rfl⟩ := run_define_eq_ok hdefine
    have hstep := ih (h.define input.1
      { opType := "Parameter", attributes := .ofList [("shape", .ints input.2)], outputs := 1 }
      (.input rfl rfl) (by simp) hfree) htail
    simpa using hstep

/-- All operators are entered in order. -/
theorem entered_operators {items : List (SourceOperator × Extracted)} {entries : List String}
    (hitems : ∀ item ∈ items, item.2 ∈ extracted ∧ item.2.opType ≠ "FakeOutput")
    (h : Entered extracted entries names graph)
    (hrun : (items.foldlM addOperator names).run graph = .ok next result) :
    Entered extracted (entries ++ items.map (·.1.name)) next result := by
  induction items generalizing names graph entries with
  | nil =>
    cases hrun
    simpa using h
  | cons item rest ih =>
    rw [List.foldlM_cons] at hrun
    obtain ⟨middle, between, hhead, htail⟩ := run_bind_eq_ok.mp hrun
    unfold addOperator at hhead
    obtain ⟨made, _, hdefine, hpure⟩ := run_bind_eq_ok.mp hhead
    cases hpure
    obtain ⟨hfree, rfl, rfl⟩ := run_define_eq_ok hdefine
    obtain ⟨hmem, htype⟩ := hitems item (by simp)
    have hstep := ih (fun other hother => hitems other (List.mem_cons_of_mem item hother))
      (h.define item.1.name
        { opType := item.2.opType, attributes := item.2.attributes,
          inputs := max item.1.inputs item.2.inputs,
          outputs := max item.1.outputs item.2.outputs }
        (.operator item.2 hmem rfl rfl (Nat.le_max_right _ _) (Nat.le_max_right _ _)) htype hfree)
      htail
    simpa using hstep

/-- Edges change neither nodes nor names. -/
theorem entered_edges {edges : List SourceEdge} {entries : List String} {value : PUnit}
    (h : Entered extracted entries names graph)
    (hrun : (edges.forM (addEdge names)).run graph = .ok value result) :
    Entered extracted entries names result := by
  refine ensures_forM (P := Entered extracted entries names) (fun edge _ => ?_) graph value result h hrun
  refine ensures_bind (ensures_ofExcept (Q := fun _ => Entered extracted entries names)
    fun _ _ hP _ => hP) fun source => ?_
  refine ensures_bind (ensures_ofExcept (Q := fun _ => Entered extracted entries names)
    fun _ _ hP _ => hP) fun destination => ensures_discard ?_
  intro graph _ result h hrun
  obtain ⟨hcheck, _, rfl⟩ := run_connect_eq_ok.mp hrun
  refine ⟨h.coherent.change (.insertConnection hcheck), h.fresh.insertConnection _ _,
    fun id bare hbare => ?_, h.names, h.nextNode⟩
  rw [Graph.bare?_insertConnection] at hbare
  exact h.unmarked id bare hbare

/-! ### Requested outputs -/

/-- The marker and the graph output of the requested output at a position are in place. -/
structure Placed (model : SourceModel) (names : SourceNames) (graph : Graph) (position : Nat)
    (output : SourceOutput) : Prop where
  /-- The marker is fed by the requested tensor, whose node came before. -/
  requested : ∃ source, names.get? output.source = some source ∧
    source.index < (model.marker position).index ∧
      graph.inputSource? (model.marker position) 0 = some (.output source output.sourcePort)
  /-- The graph output is fed by the marker. -/
  delivered : graph.inputSource? (model.sink position) 0 = some (.output (model.marker position) 0)
  /-- The marker has one input and one output. -/
  marker : ∃ bare, graph.bare? (model.marker position) = some bare ∧ bare.opType = "FakeOutput" ∧
    bare.inputs.length = 1 ∧ bare.outputs.length = 1
  /-- The type of the graph output. -/
  sink : (graph.bare? (model.sink position)).map (·.opType) = some "Result"

/-- State of the import while requested outputs are made. -/
structure Laid (model : SourceModel) (extracted : List Extracted) (done : List SourceOutput)
    (names : SourceNames) (graph : Graph) : Prop where
  /-- The records agree. -/
  coherent : graph.Coherent
  /-- Nodes are as they were made. -/
  fresh : Fresh extracted graph
  /-- The markers are those of the outputs so far. -/
  marked : ∀ id bare, graph.bare? id = some bare → bare.opType = "FakeOutput" →
    ∃ position, position < done.length ∧ id = model.marker position
  /-- Names stand with their nodes. -/
  entries : names.toList = model.producers ++ done.zipIdx.map fun (output, position) =>
    (output.name, model.marker position)
  /-- Each output has taken two numbers. -/
  nextNode : graph.nextNode = model.firstMarker + 2 * done.length
  /-- The outputs so far are in place. -/
  placed : ∀ position output, done[position]? = some output →
    Placed model names graph position output

/-- What is in place stays there when names, nodes and connections are added. -/
theorem Placed.mono {position : Nat} {output : SourceOutput}
    (h : Placed model names graph position output)
    (hnames : ∀ name id, names.get? name = some id → next.get? name = some id)
    (hnodes : graph.NodesStay result) (hfeeds : graph.FeedsStay result) :
    Placed model next result position output where
  requested := by
    obtain ⟨source, hsource, hbefore, hfeed⟩ := h.requested
    exact ⟨source, hnames _ _ hsource, hbefore, hfeeds _ _ _ hfeed⟩
  delivered := hfeeds _ _ _ h.delivered
  marker := by
    obtain ⟨bare, hbare, hmarker⟩ := h.marker
    exact ⟨bare, hnodes _ _ hbare, hmarker⟩
  sink := by
    obtain ⟨bare, hbare, htype⟩ := Option.map_eq_some_iff.mp h.sink
    rw [hnodes _ _ hbare, Option.map_some, htype]

/-- The nodes of names have numbers that are in use. -/
theorem Laid.lt_nextNode {done : List SourceOutput} (h : Laid model extracted done names graph)
    {name : String} {id : NodeId} (hname : names.get? name = some id) :
    id.index < graph.nextNode := by
  have hmem := (names.get?_eq_some_iff name id).mp hname
  rw [h.entries, List.mem_append] at hmem
  rw [h.nextNode]
  rcases hmem with hproducer | hmarker
  · obtain ⟨⟨entry, index⟩, hentry, heq⟩ := List.mem_map.mp hproducer
    have hindex := List.snd_lt_of_mem_zipIdx hentry
    simp only [List.length_append, List.length_map] at hindex
    cases heq
    simp only [firstMarker]
    omega
  · obtain ⟨⟨output, position⟩, hentry, heq⟩ := List.mem_map.mp hmarker
    have hindex := List.snd_lt_of_mem_zipIdx hentry
    cases heq
    simp only [marker]
    omega

/-- What is asked of the marker of an output. -/
def markerDesc (output : SourceOutput) : NodeDesc :=
  { opType := "FakeOutput", name := some output.name, inputs := 1, outputs := 1 }

/-- What is asked of the graph output behind a marker. -/
def sinkDesc (output : SourceOutput) : NodeDesc :=
  { opType := "Result", name := some s!"{output.name}/sink", inputs := 1 }

/-- What the import of one requested output does: a marker and a graph output are appended, and
the requested tensor flows through the first to the second. -/
structure Appended (names : SourceNames) (graph : Graph) (output : SourceOutput)
    (next : SourceNames) (result : Graph) : Prop where
  /-- The requested tensor is delivered by a node that has a name. -/
  source : ∃ source, names.get? output.source = some source ∧
    result.inputSource? ⟨graph.nextNode⟩ 0 = some (.output source output.sourcePort)
  /-- The graph output is fed by the marker. -/
  sink : result.inputSource? ⟨graph.nextNode + 1⟩ 0 = some (.output ⟨graph.nextNode⟩ 0)
  /-- The name of the output is new and leads to the marker. -/
  names : names.get? output.name = none ∧ next = names.insert output.name ⟨graph.nextNode⟩
  /-- Two nodes are appended. -/
  bare : ∀ id, result.bare? id =
    if id = ⟨graph.nextNode + 1⟩ then
      some ((graph.insertNode (markerDesc output)).newNode (sinkDesc output))
    else if id = ⟨graph.nextNode⟩ then some (graph.newNode (markerDesc output))
    else graph.bare? id
  /-- Two numbers are taken. -/
  nextNode : result.nextNode = graph.nextNode + 2
  /-- Feeds that were there stay. -/
  feeds : graph.FeedsStay result
  /-- The records still agree. -/
  coherent : result.Coherent

theorem appended_of_run (h : graph.Coherent) {output : SourceOutput}
    (hrun : (addOutput names output).run graph = .ok next result) :
    Appended names graph output next result := by
  unfold addOutput at hrun
  obtain ⟨source, hresolve, hrun⟩ := run_ofExcept_bind_eq_ok.mp hrun
  obtain ⟨made, marked, hdefine, hrun⟩ := run_bind_eq_ok.mp hrun
  obtain ⟨hfree, rfl, hmarked⟩ := run_define_eq_ok hdefine
  change marked = graph.insertNode (markerDesc output) at hmarked
  obtain ⟨sink, sunk, hsink, hrun⟩ := run_bind_eq_ok.mp hrun
  cases hsink
  obtain ⟨_, requested, hrequested, hrun⟩ := run_bind_eq_ok.mp hrun
  obtain ⟨_, hrequested⟩ := run_discard_eq_ok.mp hrequested
  obtain ⟨hfirst, _, hrequested⟩ := run_connect_eq_ok.mp hrequested
  obtain ⟨_, delivered, hdelivered, hrun⟩ := run_bind_eq_ok.mp hrun
  obtain ⟨_, hdelivered⟩ := run_discard_eq_ok.mp hdelivered
  obtain ⟨hsecond, _, hdelivered⟩ := run_connect_eq_ok.mp hdelivered
  cases hrun
  have hmarkedCoherent : marked.Coherent := hmarked ▸ h.change (.insertNode _)
  have hsunkCoherent := hmarkedCoherent.change (.insertNode (sinkDesc output))
  have hrequestedCoherent : requested.Coherent :=
    hrequested ▸ hsunkCoherent.change (.insertConnection hfirst)
  have hnext : marked.nextNode = graph.nextNode + 1 := by rw [hmarked]; rfl
  have hstay : requested.FeedsStay result :=
    hdelivered ▸ hrequestedCoherent.feedsStay_insertConnection hsecond
  have hmarker : requested.inputSource? ⟨graph.nextNode⟩ 0 =
      some (.output source output.sourcePort) := by
    rw [hrequested]
    exact (hsunkCoherent.inputSource?_insertConnection hfirst _ _).trans (if_pos ⟨rfl, rfl⟩)
  have hdeliver : result.inputSource? ⟨graph.nextNode + 1⟩ 0 =
      some (.output ⟨graph.nextNode⟩ 0) := by
    rw [hdelivered, hrequestedCoherent.inputSource?_insertConnection hsecond, hnext]
    exact if_pos ⟨rfl, rfl⟩
  refine ⟨⟨source, resolve_eq_ok_iff.mp hresolve, hstay _ _ _ hmarker⟩, hdeliver, ⟨hfree, rfl⟩,
    fun id => ?_, ?_, ?_, hdelivered ▸ hrequestedCoherent.change (.insertConnection hsecond)⟩
  · rw [hdelivered, hrequested, Graph.bare?_insertConnection, Graph.bare?_insertConnection]
    refine (Graph.bare?_insertNode marked (sinkDesc output) id).trans ?_
    rw [hnext, hmarked, Graph.bare?_insertNode]
  · rw [hdelivered, hrequested]
    change marked.nextNode + 1 = _
    rw [hnext]
  · have hfirstStay : graph.FeedsStay marked := hmarked ▸ h.feedsStay_insertNode _
    exact (hfirstStay.trans (hmarkedCoherent.feedsStay_insertNode (sinkDesc output))).trans
      ((hrequested ▸ hsunkCoherent.feedsStay_insertConnection hfirst).trans hstay)

/-- Names that were entered lead where they led. -/
theorem Appended.get?_names {output : SourceOutput} (h : Appended names graph output next result)
    (name : String) (id : NodeId) (hname : names.get? name = some id) :
    next.get? name = some id := by
  obtain ⟨hfree, hnext⟩ := h.names
  rw [hnext, OrderedMap.get?_insert, if_neg, hname]
  rintro rfl
  rw [hfree] at hname
  cases hname

/-- Nodes that were there stay. -/
theorem Appended.nodesStay {output : SourceOutput} (h : Appended names graph output next result)
    (hgraph : graph.Coherent) : graph.NodesStay result := fun node bare hbare => by
  have hlt : node.index < graph.nextNode := by
    obtain ⟨_, hn, _⟩ := Option.map_eq_some_iff.mp hbare
    exact hgraph.registered.lt_nextNode hn
  rw [h.bare, if_neg, if_neg]
  · exact hbare
  · rintro rfl
    exact Nat.lt_irrefl _ hlt
  · rintro rfl
    exact absurd hlt (Nat.not_lt.mpr (Nat.le_succ _))

/-- An output that is in place stands where it stood, or it is the one put in place last. -/
theorem getElem?_done_concat {done : List SourceOutput} {output other : SourceOutput}
    {position : Nat} (hother : (done ++ [output])[position]? = some other) :
    done[position]? = some other ∨ position = done.length ∧ other = output := by
  have hlt := (List.getElem?_eq_some_iff.mp hother).1
  rw [List.length_append, List.length_singleton] at hlt
  rcases Nat.lt_succ_iff_lt_or_eq.mp hlt with hold | rfl
  · rw [List.getElem?_append_left hold] at hother
    exact .inl hother
  · rw [List.getElem?_concat_length, Option.some.injEq] at hother
    exact .inr ⟨rfl, hother.symm⟩

/-- One more output is put in place. -/
theorem Laid.addOutput {done : List SourceOutput} {output : SourceOutput}
    (h : Laid model extracted done names graph)
    (hrun : (SourceModel.addOutput names output).run graph = .ok next result) :
    Laid model extracted (done ++ [output]) next result := by
  have happended := appended_of_run h.coherent hrun
  have hmarker : model.marker done.length = ⟨graph.nextNode⟩ := by rw [h.nextNode]; rfl
  have hsink : model.sink done.length = ⟨graph.nextNode + 1⟩ := by rw [h.nextNode]; rfl
  obtain ⟨hfree, hnext⟩ := happended.names
  refine ⟨happended.coherent, fun id bare hid => ?_, fun id bare hid htype => ?_, ?_, ?_,
    fun position other hother => ?_⟩
  · rw [happended.bare] at hid
    split at hid
    · cases hid
      exact ⟨_, _, .sink rfl rfl rfl, rfl⟩
    · split at hid
      · cases hid
        exact ⟨_, _, .marker rfl rfl rfl, rfl⟩
      · exact h.fresh id bare hid
  · rw [happended.bare, ← hmarker] at hid
    rw [List.length_append, List.length_singleton]
    split at hid
    · cases hid
      simp [Graph.newNode, sinkDesc] at htype
    · split at hid
      · rename_i hnew
        exact ⟨done.length, Nat.lt_succ_self _, hnew⟩
      · obtain ⟨position, hposition, rfl⟩ := h.marked id bare hid htype
        exact ⟨position, Nat.lt_succ_of_lt hposition, rfl⟩
  · rw [hnext, OrderedMap.toList_insert_of_absent hfree, h.entries, ← hmarker]
    simp [List.zipIdx_append]
  · rw [happended.nextNode, h.nextNode, List.length_append, List.length_singleton]
    omega
  · rcases getElem?_done_concat hother with hold | ⟨rfl, rfl⟩
    · exact (h.placed position other hold).mono happended.get?_names
        (happended.nodesStay h.coherent) happended.feeds
    · obtain ⟨source, hsource, hfeed⟩ := happended.source
      refine ⟨⟨source, happended.get?_names _ _ hsource, ?_, ?_⟩, ?_, ?_, ?_⟩
      · rw [hmarker]
        exact h.lt_nextNode hsource
      · rw [hmarker]
        exact hfeed
      · rw [hmarker, hsink]
        exact happended.sink
      · rw [happended.bare, hmarker, if_neg (by simp), if_pos rfl]
        exact ⟨_, rfl, rfl, rfl, rfl⟩
      · rw [happended.bare, hsink, if_pos rfl]
        rfl

/-- All requested outputs are put in place in order. -/
theorem laid_outputs {outputs done : List SourceOutput} (h : Laid model extracted done names graph)
    (hrun : (outputs.foldlM SourceModel.addOutput names).run graph = .ok next result) :
    Laid model extracted (done ++ outputs) next result := by
  induction outputs generalizing names graph done with
  | nil =>
    cases hrun
    simpa using h
  | cons output rest ih =>
    rw [List.foldlM_cons] at hrun
    obtain ⟨middle, between, hhead, htail⟩ := run_bind_eq_ok.mp hrun
    simpa using ih (h.addOutput hhead) htail

/-- Each result of a traversal that succeeds is the result of some item. -/
theorem exists_of_mem_mapM_ok {α β ε : Type} {f : α → Except ε β} {items : List α}
    {results : List β} (h : items.mapM f = .ok results) {result : β} (hmem : result ∈ results) :
    ∃ item ∈ items, f item = .ok result := by
  obtain ⟨hlength, hall⟩ := Except.mapM_eq_ok_iff.mp h
  obtain ⟨index, hindex⟩ := List.mem_iff_getElem?.mp hmem
  have hlt : index < items.length := hlength ▸ (List.getElem?_eq_some_iff.mp hindex).1
  obtain ⟨other, hother, hitem⟩ := hall index _ (List.getElem?_eq_getElem hlt)
  rw [hindex, Option.some.injEq] at hother
  exact ⟨items[index], List.getElem_mem hlt, hother ▸ hitem⟩

/-- Operators keep their names when they are paired with what was read from them. -/
theorem map_name_zip (hlength : extracted.length = model.operators.length) :
    (model.operators.zip extracted).map (·.1.name) = model.operators.map (·.name) := by
  have hfst : (model.operators.zip extracted).map Prod.fst = model.operators :=
    List.map_fst_zip (Nat.le_of_eq hlength.symm)
  calc (model.operators.zip extracted).map (·.1.name)
      = ((model.operators.zip extracted).map Prod.fst).map (·.name) := by
        rw [List.map_map]
        rfl
    _ = model.operators.map (·.name) := by rw [hfst]

/-- The import of a model as a whole. -/
theorem laid_of_run_build (hlength : extracted.length = model.operators.length)
    (hmarkers : ∀ item ∈ extracted, item.opType ≠ "FakeOutput") {value : Unit}
    (hrun : (model.build extracted).run .empty = .ok value graph) :
    ∃ names, Laid model extracted model.outputs names graph := by
  unfold build at hrun
  obtain ⟨first, withInputs, hinputs, hrun⟩ := run_bind_eq_ok.mp hrun
  obtain ⟨second, withOperators, hoperators, hrun⟩ := run_bind_eq_ok.mp hrun
  obtain ⟨_, withEdges, hedges, hrun⟩ := run_bind_eq_ok.mp hrun
  obtain ⟨names, houtputs⟩ := run_discard_eq_ok.mp hrun
  have hentered := entered_edges (entered_operators (fun item hitem => ?_)
    (entered_inputs (.empty extracted) hinputs) hoperators) hedges
  · rw [List.nil_append, map_name_zip hlength] at hentered
    have hlaid : Laid model extracted [] second withEdges := by
      refine ⟨hentered.coherent, hentered.fresh, fun id bare hid htype => ?_, ?_, ?_, ?_⟩
      · exact absurd htype (hentered.unmarked id bare hid)
      · simpa [producers] using hentered.names
      · simpa [firstMarker] using hentered.nextNode
      · intro position output houtput
        cases houtput
    exact ⟨names, by simpa using laid_outputs hlaid houtputs⟩
  · have hmem := (List.of_mem_zip hitem).2
    exact ⟨hmem, hmarkers item.2 hmem⟩

/-- The extractors never make a marker of their own. -/
def LeavesMarkers (registry : ExtractorRegistry) : Prop :=
  ∀ format operator record item,
    registry.extract format operator record = .ok item → item.opType ≠ "FakeOutput"

/-- An imported graph: what the import leaves behind at its end. -/
theorem laid_of_toGraph (hgraph : model.toGraph registry = .ok graph)
    (hmarkers : LeavesMarkers registry) :
    ∃ extracted names, model.operators.mapM (fun operator =>
        registry.extract model.format operator.operator operator.record) = .ok extracted ∧
      Laid model extracted model.outputs names graph := by
  obtain ⟨extracted, hextracted, hrun⟩ := toGraph_eq_ok_iff.mp hgraph
  obtain ⟨names, hlaid⟩ := laid_of_run_build (Except.mapM_eq_ok_iff.mp hextracted).1 (fun item hitem => by
    obtain ⟨operator, _, hitem⟩ := exists_of_mem_mapM_ok hextracted hitem
    exact hmarkers _ _ _ item hitem) hrun
  exact ⟨extracted, names, hextracted, hlaid⟩

/-- A rectifier whose output is requested under two names. -/
def requestedTwice : SourceModel where
  format := .onnx
  inputs := [("x", [4])]
  operators := [{ name := "r", operator := "Relu", record := .empty, inputs := 1, outputs := 1 }]
  edges := [⟨"x", 0, "r", 0⟩]
  outputs := [⟨"a", "r", 0⟩, ⟨"b", "r", 0⟩]

end SourceModel

end OpGraph
