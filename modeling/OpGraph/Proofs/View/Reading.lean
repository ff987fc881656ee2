import Mathlib.Logic.Function.Basic
import OpGraph.Proofs.Edit.Changes
import OpGraph.Proofs.Graph.Feed
import OpGraph.Proofs.View.Stem

/-!
# Graphs read by name

Numbers of nodes and connections say in which order they were made. What a graph means does not
depend on them: it is what the graph says of each name, other nodes being called by their names.
Every addition to a graph changes what is said of one name or of two, and the equations of this
module say how.
-/

namespace OpGraph

/-- What a graph says of a node, with other nodes called by name. -/
structure Reading where
  /-- Type of the operator. -/
  opType : String
  /-- Parameters of the operator. -/
  attributes : Attributes
  /-- Number of input ports. -/
  inputs : Nat
  /-- Name and output port of the node that feeds an input port. -/
  feeds : Nat → Option (String × Nat)
  /-- Number of output ports. -/
  outputs : Nat
  /-- What is known about the tensor of an output port. -/
  infos : Nat → Option TensorInfo
  /-- Whether something consumes an output port. -/
  used : Nat → Bool

/-- What is said of each name; nothing is said of a name that no node carries. -/
abbrev View := String → Option Reading

/-- What is said of a node with these feeds and these uses. -/
def Node.reading (node : Node) (feeds : Nat → Option (String × Nat)) (used : Nat → Bool) :
    Reading where
  opType := node.opType
  attributes := node.attributes
  inputs := node.inputs.length
  feeds := feeds
  outputs := node.outputs.length
  infos index := node.outputs[index]?.bind (·.info)
  used := used

/-- What is said of a node that was just made. -/
def NodeDesc.reading (desc : NodeDesc) : Reading where
  opType := desc.opType
  attributes := desc.attributes
  inputs := desc.inputs
  feeds _ := none
  outputs := desc.outputs
  infos _ := none
  used _ := false

namespace Reading

/-- One more input port, which nothing feeds. -/
def withInput (reading : Reading) : Reading := { reading with inputs := reading.inputs + 1 }

/-- One more output port, of which nothing is known and which nothing consumes. -/
def withOutput (reading : Reading) : Reading := { reading with outputs := reading.outputs + 1 }

/-- Something gets known about an output port. -/
def inform (reading : Reading) (index : Nat) (info : TensorInfo) : Reading :=
  { reading with infos := Function.update reading.infos index (some info) }

/-- An input port gets fed. -/
def feed (reading : Reading) (index : Nat) (source : String × Nat) : Reading :=
  { reading with feeds := Function.update reading.feeds index (some source) }

/-- An output port gets consumed. -/
def use (reading : Reading) (index : Nat) : Reading :=
  { reading with used := Function.update reading.used index true }

end Reading

namespace Graph

variable {graph changed : Graph} {id other : NodeId} {name : String} {reading : Reading}
  {seen : View}

/-- Name and output port of the node that feeds an input port. -/
def feedName? (graph : Graph) (id : NodeId) (index : Nat) : Option (String × Nat) :=
  (graph.inputSource? id index).bind fun port => (graph.nameOf? port.node).map (·, port.index)

/-- Whether something consumes an output port. -/
def isUsed (graph : Graph) (id : NodeId) (index : Nat) : Bool := !(graph.listed id index).isEmpty

/-- What the graph says of a node. -/
def reading? (graph : Graph) (id : NodeId) : Option Reading :=
  (graph.bare? id).map fun bare => bare.reading (graph.feedName? id) (graph.isUsed id)

/-- What the graph says of each name. -/
def view (graph : Graph) : View := fun name => (graph.idOf? name).bind graph.reading?

/-- What is said of a node is said of its name. -/
theorem Registered.view_of_nameOf? (h : graph.Registered) (hname : graph.nameOf? id = some name) :
    graph.view name = graph.reading? id := by
  rw [view, (h.named name id).mpr hname, Option.bind_some]

/-- Something is said of the names that nodes carry. -/
theorem Registered.isSome_view (h : graph.Registered) (name : String) :
    (graph.view name).isSome = (graph.idOf? name).isSome := by
  cases hid : graph.idOf? name with
  | none => rw [view, hid]; rfl
  | some id =>
    have hname := (h.named name id).mp hid
    rw [h.view_of_nameOf? hname, reading?, Option.isSome_map]
    rw [nameOf?_eq_bare?] at hname
    obtain ⟨bare, hbare, _⟩ := Option.map_eq_some_iff.mp hname
    rw [hbare]
    rfl

/-- A new node gets the first name of which nothing is said. -/
theorem Registered.freshName_eq (h : graph.Registered) (base : String) :
    graph.freshName base = firstFree (fun name => (graph.view name).isSome = true) base := by
  rw [freshName_eq_firstFree]
  exact firstFree_congr fun name _ => by rw [h.isSome_view]

/-- A view is that of a graph if it says of each node what the graph says, and nothing of names that
no node carries. -/
theorem Registered.view_eq (h : graph.Registered)
    (hnodes : ∀ id name, graph.nameOf? id = some name → graph.reading? id = seen name)
    (hfree : ∀ name, graph.idOf? name = none → seen name = none) : graph.view = seen := by
  funext name
  cases hid : graph.idOf? name with
  | none => rw [hfree name hid, Graph.view, hid]; rfl
  | some id =>
    have hname := (h.named name id).mp hid
    rw [h.view_of_nameOf? hname, hnodes id name hname]

/-! ### What additions change -/

/-- The name of a node stays under a change of connections. -/
theorem nameOf?_insertConnection (source destination : PortRef) (id : NodeId) :
    (graph.insertConnection source destination).nameOf? id = graph.nameOf? id := by
  rw [nameOf?_eq_bare?, nameOf?_eq_bare?, bare?_insertConnection]

theorem Coherent.feedName?_insertNode (h : graph.Coherent) (desc : NodeDesc) (id : NodeId)
    (index : Nat) : (graph.insertNode desc).feedName? id index = graph.feedName? id index := by
  unfold feedName?
  rw [h.inputSource?_insertNode]
  cases hsource : graph.inputSource? id index with
  | none => rfl
  | some port =>
    obtain ⟨node, hn, _⟩ := h.hasPort_of_inputSource? hsource
    rw [Option.bind_some, Option.bind_some, nameOf?_insertNode, if_neg]
    intro hnew
    rw [hnew, h.registered.node?_next] at hn
    cases hn

theorem Coherent.isUsed_insertNode (h : graph.Coherent) (desc : NodeDesc) (id : NodeId)
    (index : Nat) : (graph.insertNode desc).isUsed id index = graph.isUsed id index := by
  unfold isUsed
  rw [graph.listed_insertNode desc h.registered.node?_next]

/-- Nothing feeds a node that does not exist. -/
theorem feedName?_of_none (hn : graph.node? id = none) (index : Nat) :
    graph.feedName? id index = none := by
  unfold feedName?
  cases hsource : graph.inputSource? id index with
  | none => rfl
  | some port =>
    have hsome := node?_isSome_of_inputSource? hsource
    rw [hn] at hsome
    cases hsome

/-- Nothing consumes the ports of a node that does not exist. -/
theorem isUsed_of_none (hn : graph.node? id = none) (index : Nat) : graph.isUsed id index = false := by
  unfold isUsed listed
  rw [hn]
  rfl

/-- Of a new node its description is said, and of the others the same as before. -/
theorem Coherent.reading?_insertNode (h : graph.Coherent) (desc : NodeDesc) (id : NodeId) :
    (graph.insertNode desc).reading? id =
      if id = ⟨graph.nextNode⟩ then some desc.reading else graph.reading? id := by
  have hfeeds : (graph.insertNode desc).feedName? id = graph.feedName? id :=
    funext (h.feedName?_insertNode desc id)
  have hused : (graph.insertNode desc).isUsed id = graph.isUsed id :=
    funext (h.isUsed_insertNode desc id)
  unfold reading?
  rw [bare?_insertNode, hfeeds, hused]
  by_cases hnew : id = ⟨graph.nextNode⟩
  · have hnone : graph.node? id = none := by rw [hnew, h.registered.node?_next]
    rw [if_pos hnew, if_pos hnew, Option.map_some, funext (feedName?_of_none hnone),
      funext (isUsed_of_none hnone)]
    simp only [Node.reading, newNode, NodeDesc.reading, List.length_map, List.length_range,
      List.getElem?_map, Option.some.injEq, Reading.mk.injEq, true_and, and_true]
    funext index
    cases (List.range desc.outputs)[index]? <;> rfl
  · rw [if_neg hnew, if_neg hnew]

/-- A neutral change of a node changes what is said of this node. -/
theorem reading?_modifyNode {f g : Node → Node} (hf : Node.Neutral f)
    (hg : ∀ node, (f node).bare = g node.bare) (id other : NodeId) :
    (graph.modifyNode id f).reading? other =
      if other = id then (graph.bare? other).map fun bare =>
        (g bare).reading (graph.feedName? other) (graph.isUsed other)
      else graph.reading? other := by
  have hfeeds : (graph.modifyNode id f).feedName? other = graph.feedName? other := by
    funext index
    unfold feedName?
    rw [inputSource?_modifyNode hf]
    simp only [nameOf?_modifyNode hf.name]
  have hused : (graph.modifyNode id f).isUsed other = graph.isUsed other := by
    funext index
    unfold isUsed
    rw [graph.listed_modifyNode hf.listed]
  unfold reading?
  rw [bare?_modifyNode hg, hfeeds, hused]
  split
  · rw [Option.map_map]
    rfl
  · rfl

theorem Coherent.feedName?_insertConnection (h : graph.Coherent) {source destination : PortRef}
    (hcheck : graph.checkConnect source destination = .ok ())
    (hname : graph.nameOf? source.node = some name)
    (id : NodeId) (index : Nat) :
    (graph.insertConnection source destination).feedName? id index =
      if id = destination.node ∧ index = destination.index then some (name, source.index)
      else graph.feedName? id index := by
  unfold feedName?
  rw [h.inputSource?_insertConnection hcheck]
  simp only [nameOf?_insertConnection]
  split
  · rw [Option.bind_some, hname, Option.map_some]
  · rfl

theorem isUsed_insertConnection {source destination : PortRef}
    (hcheck : graph.checkConnect source destination = .ok ()) (id : NodeId) (index : Nat) :
    (graph.insertConnection source destination).isUsed id index =
      if id = source.node ∧ index = source.index then true else graph.isUsed id index := by
  obtain ⟨hdir, _, hport, _, _⟩ := (graph.checkConnect_eq_ok_iff source destination).mp hcheck
  unfold isUsed
  rw [listed_insertConnection hport hdir]
  split
  · simp
  · rfl

/-- A connection between two nodes changes what is said of these two. -/
theorem Coherent.reading?_insertConnection (h : graph.Coherent) {source destination : PortRef}
    (hcheck : graph.checkConnect source destination = .ok ())
    (hname : graph.nameOf? source.node = some name)
    (hother : destination.node ≠ source.node) (id : NodeId) :
    (graph.insertConnection source destination).reading? id =
      if id = destination.node then
        (graph.reading? id).map (·.feed destination.index (name, source.index))
      else if id = source.node then (graph.reading? id).map (·.use source.index)
      else graph.reading? id := by
  have hfeeds := h.feedName?_insertConnection hcheck hname id
  have hused := isUsed_insertConnection hcheck id
  unfold reading?
  rw [bare?_insertConnection]
  by_cases hdestination : id = destination.node
  · rw [if_pos hdestination, Option.map_map]
    have hfed : (graph.insertConnection source destination).feedName? id =
        Function.update (graph.feedName? id) destination.index (some (name, source.index)) := by
      funext index
      rw [hfeeds, Function.update_apply]
      simp [hdestination]
    have hsame : (graph.insertConnection source destination).isUsed id = graph.isUsed id := by
      funext index
      rw [hused, if_neg]
      rintro ⟨hsource, _⟩
      exact hother (hdestination.symm.trans hsource)
    rw [hfed, hsame]
    rfl
  · have hsame : (graph.insertConnection source destination).feedName? id = graph.feedName? id := by
      funext index
      rw [hfeeds, if_neg fun hboth => hdestination hboth.1]
    rw [if_neg hdestination, hsame]
    by_cases hsource : id = source.node
    · have hconsumed : (graph.insertConnection source destination).isUsed id =
          Function.update (graph.isUsed id) source.index true := by
        funext index
        rw [hused, Function.update_apply]
        simp [hsource]
      rw [if_pos hsource, Option.map_map, hconsumed]
      rfl
    · have hidle : (graph.insertConnection source destination).isUsed id = graph.isUsed id := by
        funext index
        rw [hused, if_neg fun hboth => hsource hboth.1]
      rw [if_neg hsource, hidle]

end Graph

end OpGraph
