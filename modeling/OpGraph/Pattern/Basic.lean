import OpGraph.Graph.Basic
import OpGraph.Repeat

/-!
# Patterns

A pattern describes a small piece of a graph: labelled nodes with conditions on
their type and attributes, and edges between the labels. That there is a node, that
no label is used twice and that every edge joins labels of the pattern is part of the
type; a draft collects nodes and edges before these rules are checked.
-/

namespace OpGraph

/-- Condition on one attribute of a node. -/
inductive AttrPredicate where
  /-- The attribute is present and equal to the value. -/
  | equals (name : String) (value : AttrValue)
  /-- The attribute is present. -/
  | present (name : String)
  /-- The attribute is absent. -/
  | absent (name : String)
  /-- The attribute is present and truthy. -/
  | isSet (name : String)
  /-- The attribute is present and of the kind. -/
  | kindOf (name : String) (kind : AttrKind)

/-- Whether attributes meet a condition. -/
def AttrPredicate.holds (attributes : Attributes) : AttrPredicate → Bool
  | equals name value => (attributes.get? name).any (· == value)
  | present name => attributes.contains name
  | absent name => !attributes.contains name
  | isSet name => attributes.isSet name
  | kindOf name kind => (attributes.get? name).any fun value => value.kind = kind

/-- Condition on one node of a pattern. -/
structure NodePattern where
  /-- Label by which edges and matches refer to the node. -/
  label : String
  /-- Operator type of the node; without one, any type will do. -/
  opType : Option String
  /-- Conditions on the attributes, all of which must hold. -/
  predicates : List AttrPredicate

/-- Whether a node meets the conditions. -/
def NodePattern.accepts (pattern : NodePattern) (node : Node) : Bool :=
  pattern.opType.all (node.opType = ·) && pattern.predicates.all (·.holds node.attributes)

/-- Connection between two nodes of a pattern. -/
structure EdgePattern where
  /-- Label of the node at which the connection starts. -/
  producer : String
  /-- Output port at which it starts; without one, any port will do. -/
  producerPort : Option Nat
  /-- Label of the node at which the connection ends. -/
  consumer : String
  /-- Input port at which it ends; without one, any port will do. -/
  consumerPort : Option Nat
  deriving DecidableEq

/-- Whether a connection from one node to another is the one that is asked for. -/
def EdgePattern.accepts (edge : EdgePattern) (producer consumer : NodeId)
    (connection : Connection) : Bool :=
  connection.source.node = producer && connection.destination.node = consumer &&
    edge.producerPort.all (connection.source.index = ·) &&
    edge.consumerPort.all (connection.destination.index = ·)

/-- Labelled nodes and edges between them. -/
structure Pattern where
  /-- Nodes in the order in which they are bound; the first one anchors a match. -/
  nodes : List NodePattern
  /-- Edges between the labels. -/
  edges : List EdgePattern
  /-- There is an anchor. -/
  nodes_ne_nil : nodes ≠ []
  /-- No two nodes share a label. -/
  nodup_labels : (nodes.map (·.label)).Nodup
  /-- Every edge starts and ends at a label of the pattern. -/
  edge_labels : ∀ edge ∈ edges,
    edge.producer ∈ nodes.map (·.label) ∧ edge.consumer ∈ nodes.map (·.label)

/-- Add a condition to the last node of a list, if there is one. -/
def constrainLast (nodes : List NodePattern) (predicate : AttrPredicate) : List NodePattern :=
  nodes.modify (nodes.length - 1) fun node =>
    { node with predicates := node.predicates ++ [predicate] }

/-- A condition on a node does not change its label. -/
theorem labels_constrainLast (nodes : List NodePattern) (predicate : AttrPredicate) :
    (constrainLast nodes predicate).map (·.label) = nodes.map (·.label) := by
  apply List.ext_getElem?
  intro i
  simp only [constrainLast, List.getElem?_map, List.getElem?_modify]
  cases nodes[i]? with
  | none => rfl
  | some node => simp only [Option.map_some]; split <;> rfl

namespace Pattern

/-- Labels in binding order. -/
def labels (pattern : Pattern) : List String := pattern.nodes.map (·.label)

/-- Label of the first node. -/
def anchor (pattern : Pattern) : String := (pattern.nodes.head pattern.nodes_ne_nil).label

/-- Position of a label. -/
def position? (pattern : Pattern) (label : String) : Option Nat := pattern.labels.findIdx? (· = label)

/-- One node of a given type. -/
def single (label opType : String) : Pattern where
  nodes := [⟨label, some opType, []⟩]
  edges := []
  nodes_ne_nil := by simp
  nodup_labels := by simp
  edge_labels := by simp

/-- Add a condition to the last node. -/
def constrain (pattern : Pattern) (predicate : AttrPredicate) : Pattern where
  nodes := constrainLast pattern.nodes predicate
  edges := pattern.edges
  nodes_ne_nil := by
    intro h
    have hlabels := labels_constrainLast pattern.nodes predicate
    rw [h] at hlabels
    exact pattern.nodes_ne_nil (List.map_eq_nil_iff.mp hlabels.symm)
  nodup_labels := by rw [labels_constrainLast]; exact pattern.nodup_labels
  edge_labels := by simpa only [labels_constrainLast] using pattern.edge_labels

end Pattern

/-- Nodes and edges that may not form a pattern yet. -/
structure PatternDraft where
  /-- Nodes so far. -/
  nodes : List NodePattern
  /-- Edges so far. -/
  edges : List EdgePattern

namespace PatternDraft

/-- Nothing collected yet. -/
def empty : PatternDraft := ⟨[], []⟩

/-- Add a node; without a type it accepts any. -/
def node (draft : PatternDraft) (label : String) (opType : Option String) : PatternDraft :=
  { draft with nodes := draft.nodes ++ [⟨label, opType, []⟩] }

/-- Add a condition to the last node, if there is one. -/
def constrain (draft : PatternDraft) (predicate : AttrPredicate) : PatternDraft :=
  { draft with nodes := constrainLast draft.nodes predicate }

/-- Add an edge. -/
def edge (draft : PatternDraft) (edge : EdgePattern) : PatternDraft :=
  { draft with edges := draft.edges ++ [edge] }

/-- First label of an edge that no node carries. -/
def unknownLabel? (draft : PatternDraft) : Option String :=
  (draft.edges.flatMap fun edge => [edge.producer, edge.consumer]).find? fun label =>
    label ∉ draft.nodes.map (·.label)

/-- The pattern, if the rules are kept. -/
def build (draft : PatternDraft) : Except GraphError Pattern :=
  if hnodes : draft.nodes = [] then .error (.internal .emptyPattern)
  else match hrepeat : firstRepeat? (draft.nodes.map (·.label)) with
    | some label => .error (.internal (.repeatedLabel label))
    | none => match hunknown : draft.unknownLabel? with
      | some label => .error (.internal (.unknownLabel label))
      | none => .ok
        { nodes := draft.nodes
          edges := draft.edges
          nodes_ne_nil := hnodes
          nodup_labels := (firstRepeat?_eq_none_iff _).mp hrepeat
          edge_labels := by
            intro edge hedge
            have hknown : ∀ label ∈ [edge.producer, edge.consumer],
                label ∈ draft.nodes.map (·.label) := fun label hlabel => by
              have h := List.find?_eq_none.mp hunknown label
                (List.mem_flatMap.mpr ⟨edge, hedge, hlabel⟩)
              simpa using h
            exact ⟨hknown _ (by simp), hknown _ (by simp)⟩ }

end PatternDraft

end OpGraph
