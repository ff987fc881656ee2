import Mathlib.Logic.Relation
import OpGraph.Proofs.Graph.Bare
import OpGraph.Proofs.Graph.Coherent

/-!
# Single changes

Whatever an edit does to a graph, it does by single changes, each made under the condition that
the edit has checked. A property of graphs therefore holds throughout if every single change
keeps it. Here this is shown of coherence and of the rule that no number is used twice.
-/

namespace OpGraph

/-- A change of a node that shows in none of the records that other parts of the graph repeat. -/
structure Node.Neutral (f : Node → Node) : Prop where
  /-- The name stays. -/
  name : ∀ node, (f node).name = node.name
  /-- What the slots hold stays. -/
  feed : ∀ node index, (f node).feed? index = node.feed? index
  /-- What the output ports list stays. -/
  listed : ∀ node index, (f node).listed index = node.listed index
  /-- Ports still carry their positions. -/
  indexed : ∀ node, node.Indexed → (f node).Indexed

namespace Graph

/-- Nothing is connected to the node. -/
structure Detached (graph : Graph) (id : NodeId) : Prop where
  /-- No connection starts at the node. -/
  source : ∀ connection port, graph.source? connection = some port → port.node ≠ id
  /-- No connection ends at the node. -/
  destination : ∀ connection port, graph.destination? connection = some port → port.node ≠ id

/-- One change of a graph under its condition. -/
inductive Change (graph : Graph) : Graph → Prop where
  /-- A node is appended. -/
  | insertNode (desc : NodeDesc) : Change graph (graph.insertNode desc)
  /-- A node is changed where nothing else refers to it. -/
  | modifyNode (id : NodeId) {f : Node → Node} (neutral : Node.Neutral f) :
      Change graph (graph.modifyNode id f)
  /-- A node takes a free name. -/
  | rename {id : NodeId} {node : Node} {name : String} (found : graph.node? id = some node)
      (free : graph.idOf? name = none) : Change graph (graph.rename id node.name name)
  /-- A node without connections is removed. -/
  | eraseNode {id : NodeId} {node : Node} (found : graph.node? id = some node)
      (detached : graph.Detached id) : Change graph (graph.eraseNode id node.name)
  /-- Two ports are connected. -/
  | insertConnection {source destination : PortRef}
      (allowed : graph.checkConnect source destination = .ok ()) :
      Change graph (graph.insertConnection source destination)
  /-- A connection is removed. -/
  | eraseConnection {id : ConnectionId} {ends : Connection}
      (found : graph.connection? id = some ends) : Change graph (graph.eraseConnection id ends)
  /-- A connection moves to a free input port. -/
  | moveDestination {id : ConnectionId} {ends : Connection} {port : PortRef}
      (found : graph.connection? id = some ends) (input : port.direction = .input)
      (exists_ : graph.HasPort port)
      (free : graph.inputConnection? port.node port.index = none) :
      Change graph (graph.moveDestination id ends.destination port)
  /-- A connection moves to another output port. -/
  | moveSource {id : ConnectionId} {ends : Connection} {port : PortRef}
      (found : graph.connection? id = some ends) (output : port.direction = .output)
      (exists_ : graph.HasPort port) (other : port ≠ ends.source) :
      Change graph (graph.moveSource id ends.source port)

/-- Any number of changes, one after another. -/
def Changes : Graph → Graph → Prop := Relation.ReflTransGen Change

variable {graph changed : Graph}

namespace Coherent

/-- The graph without nodes is coherent. -/
theorem empty : Graph.empty.Coherent :=
  ⟨.empty, .empty, List.Pairwise.nil, fun _ h => by cases h⟩

/-- A connection with the next number does not exist yet. -/
theorem connection?_next (h : graph.Coherent) : graph.connection? ⟨graph.nextConnection⟩ = none :=
  h.counted.get?_eq_none (Nat.le_refl _)

/-- Every single change keeps a graph coherent. -/
theorem change (h : graph.Coherent) (hchange : graph.Change changed) : changed.Coherent := by
  cases hchange with
  | insertNode desc =>
    have hlinked : (graph.insertNode desc).Linked :=
      h.linked.congr (fun _ => rfl) (graph.listed_insertNode desc h.registered.node?_next)
        (graph.inputConnection?_insertNode desc h.registered.node?_next)
    exact ⟨hlinked, h.registered.insertNode desc, h.counted⟩
  | @modifyNode id f neutral =>
    have hlinked : (graph.modifyNode id f).Linked :=
      h.linked.congr (fun _ => rfl) (graph.listed_modifyNode neutral.listed id)
        (graph.inputConnection?_modifyNode neutral.feed id)
    exact ⟨hlinked, h.registered.modifyNode neutral.name neutral.indexed, h.counted⟩
  | @rename id node name found free =>
    have hlinked : (graph.rename id node.name name).Linked := h.linked.congr (fun _ => rfl)
      (fun other index => graph.listed_rename id other node.name name index)
      (fun other index => graph.inputConnection?_rename id other node.name name index)
    exact ⟨hlinked, h.registered.rename found free, h.counted⟩
  | eraseNode found detached =>
    exact ⟨h.linked.eraseNode detached.source detached.destination, h.registered.eraseNode found,
      h.counted⟩
  | @insertConnection source destination allowed =>
    have hregistered := (h.registered.modifyOutput
      (f := fun output => { output with connections := output.connections ++ [⟨graph.nextConnection⟩] })
      (fun _ => rfl) source).setFeed destination (some ⟨graph.nextConnection⟩)
    exact ⟨h.linked.insertConnection h.connection?_next allowed,
      ⟨hregistered.named, hregistered.indexed, hregistered.counted⟩, h.counted.insert rfl _⟩
  | @eraseConnection id ends found =>
    have hregistered := (h.registered.modifyOutput
      (f := fun output => { output with connections := output.connections.filter (· ≠ id) })
      (fun _ => rfl) ends.source).setFeed ends.destination none
    exact ⟨h.linked.eraseConnection found,
      ⟨hregistered.named, hregistered.indexed, hregistered.counted⟩, h.counted.erase id⟩
  | @moveDestination id ends port found input exists_ free =>
    have hregistered := (h.registered.setFeed ends.destination none).setFeed port (some id)
    exact ⟨h.linked.moveDestination found input exists_ free,
      ⟨hregistered.named, hregistered.indexed, hregistered.counted⟩, h.counted.modify id _⟩
  | @moveSource id ends port found output exists_ other =>
    have hregistered := (h.registered.modifyOutput
      (f := fun output => { output with connections := output.connections.filter (· ≠ id) })
      (fun _ => rfl) ends.source).modifyOutput
      (f := fun output => { output with connections := output.connections ++ [id] })
      (fun _ => rfl) port
    exact ⟨h.linked.moveSource found output exists_ other,
      ⟨hregistered.named, hregistered.indexed, hregistered.counted⟩, h.counted.modify id _⟩

/-- Any number of changes keep a graph coherent. -/
theorem changes (h : graph.Coherent) (hchanges : graph.Changes changed) : changed.Coherent := by
  induction hchanges with
  | refl => exact h
  | tail _ hlast ih => exact ih.change hlast

end Coherent

/-- The counters have not gone back, and what was missing below them is missing still. -/
structure Later (graph later : Graph) : Prop where
  /-- Numbers of nodes go up. -/
  nextNode : graph.nextNode ≤ later.nextNode
  /-- Numbers of connections go up. -/
  nextConnection : graph.nextConnection ≤ later.nextConnection
  /-- No number of a node is used again. -/
  node : ∀ id, id.index < graph.nextNode → graph.node? id = none → later.node? id = none
  /-- No number of a connection is used again. -/
  connection : ∀ id, id.index < graph.nextConnection → graph.connection? id = none →
    later.connection? id = none

namespace Later

theorem refl (graph : Graph) : graph.Later graph :=
  ⟨Nat.le_refl _, Nat.le_refl _, fun _ _ h => h, fun _ _ h => h⟩

theorem trans {middle later : Graph} (h : graph.Later middle) (h' : middle.Later later) :
    graph.Later later where
  nextNode := Nat.le_trans h.nextNode h'.nextNode
  nextConnection := Nat.le_trans h.nextConnection h'.nextConnection
  node id hid hn := h'.node id (Nat.lt_of_lt_of_le hid h.nextNode) (h.node id hid hn)
  connection id hid hc :=
    h'.connection id (Nat.lt_of_lt_of_le hid h.nextConnection) (h.connection id hid hc)

/-- Every single change goes on counting. -/
theorem of_change (hchange : graph.Change changed) : graph.Later changed := by
  cases hchange with
  | insertNode desc =>
    refine ⟨Nat.le_succ _, Nat.le_refl _, fun id hid hn => ?_, fun _ _ h => h⟩
    have hne : id ≠ ⟨graph.nextNode⟩ := fun h => by
      rw [h] at hid
      exact Nat.lt_irrefl _ hid
    rw [node?_insertNode, if_neg hne]
    exact hn
  | modifyNode id neutral =>
    refine ⟨Nat.le_refl _, Nat.le_refl _, fun other _ hn => ?_, fun _ _ h => h⟩
    rw [node?_modifyNode, hn]
    exact ite_self none
  | rename found free =>
    refine ⟨Nat.le_refl _, Nat.le_refl _, fun other _ hn => ?_, fun _ _ h => h⟩
    rw [node?_rename, hn]
    exact ite_self none
  | eraseNode found detached =>
    refine ⟨Nat.le_refl _, Nat.le_refl _, fun other _ hn => ?_, fun _ _ h => h⟩
    rw [node?_eraseNode, hn]
    exact ite_self none
  | insertConnection allowed =>
    refine ⟨Nat.le_refl _, Nat.le_succ _, fun other _ hn => ?_, fun id hid hc => ?_⟩
    · rw [← bare?_eq_none_iff, bare?_insertConnection, bare?_eq_none_iff]
      exact hn
    · have hne : id ≠ ⟨graph.nextConnection⟩ := fun h => by
        rw [h] at hid
        exact Nat.lt_irrefl _ hid
      rw [connection?_insertConnection, if_neg hne]
      exact hc
  | eraseConnection found =>
    refine ⟨Nat.le_refl _, Nat.le_refl _, fun other _ hn => ?_, fun id _ hc => ?_⟩
    · rw [← bare?_eq_none_iff, bare?_eraseConnection, bare?_eq_none_iff]
      exact hn
    · rw [connection?_eraseConnection, hc]
      exact ite_self none
  | moveDestination found input exists_ free =>
    refine ⟨Nat.le_refl _, Nat.le_refl _, fun other _ hn => ?_, fun id _ hc => ?_⟩
    · rw [← bare?_eq_none_iff, bare?_moveDestination, bare?_eq_none_iff]
      exact hn
    · rw [connection?_moveDestination, hc]
      exact ite_self none
  | moveSource found output exists_ other =>
    refine ⟨Nat.le_refl _, Nat.le_refl _, fun other _ hn => ?_, fun id _ hc => ?_⟩
    · rw [← bare?_eq_none_iff, bare?_moveSource, bare?_eq_none_iff]
      exact hn
    · rw [connection?_moveSource, hc]
      exact ite_self none

theorem of_changes (hchanges : graph.Changes changed) : graph.Later changed := by
  induction hchanges with
  | refl => exact refl graph
  | tail _ hlast ih => exact ih.trans (of_change hlast)

end Later

end Graph

end OpGraph
