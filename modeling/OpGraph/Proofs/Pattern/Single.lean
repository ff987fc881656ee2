import OpGraph.Pass.Basic
import OpGraph.Pattern.Match
import OpGraph.Proofs.Graph.Bare

/-!
# Patterns of a single node

The patterns of the standard passes have one node and no edge. Their matches are the nodes that
the conditions accept, in the order of the graph.
-/

namespace OpGraph.Pattern

variable {pattern : Pattern} {node : NodePattern} {graph : Graph} {found : Match}

/-- The pattern consists of one node. -/
def IsSingle (pattern : Pattern) (node : NodePattern) : Prop :=
  pattern.nodes = [node] ∧ pattern.edges = []

theorem isSingle_single (label opType : String) :
    (single label opType).IsSingle ⟨label, some opType, []⟩ := ⟨rfl, rfl⟩

theorem isSingle_constrain (h : pattern.IsSingle node) (predicate : AttrPredicate) :
    (pattern.constrain predicate).IsSingle
      { node with predicates := node.predicates ++ [predicate] } := by
  refine ⟨?_, h.2⟩
  change constrainLast pattern.nodes predicate = _
  rw [h.1]
  rfl

/-- Each accepted node is a match by itself. -/
theorem findAll_of_isSingle (h : pattern.IsSingle node) (graph : Graph) :
    pattern.findAll graph = (candidates graph node).map fun id => ⟨[(node.label, id)]⟩ := by
  have hconsistent : ∀ bound, pattern.edgesConsistent graph bound = true := fun bound => by
    simp [edgesConsistent, h.2]
  have hextensions : pattern.extensions graph pattern.nodes [] =
      (candidates graph node).map fun id => [id] := by
    rw [h.1]
    simp [extensions, hconsistent, List.map_eq_flatMap]
  unfold findAll
  rw [hextensions, labels, h.1, List.map_map]
  rfl

/-- A match still holds exactly if its one node is still accepted. -/
theorem stillMatches_of_isSingle (h : pattern.IsSingle node) :
    pattern.stillMatches graph found = true ↔
      ∃ label id bound, found = ⟨[(label, id)]⟩ ∧ graph.node? id = some bound ∧
        node.accepts bound = true := by
  unfold stillMatches
  rw [h.1, h.2]
  simp only [List.length_singleton, List.all_nil, Bool.and_true, Bool.and_eq_true,
    decide_eq_true_eq]
  constructor
  · rintro ⟨hsize, hnodes⟩
    obtain ⟨entry, hentry⟩ := List.length_eq_one_iff.mp hsize
    obtain ⟨label, id⟩ := entry
    have hids : found.ids = [id] := by simp [Match.ids, hentry]
    rw [hids] at hnodes
    simp only [List.zip_cons_cons, List.zip_nil_right, List.all_cons, List.all_nil, Bool.and_true,
      Option.any_eq_true] at hnodes
    obtain ⟨bound, hbound, haccepts⟩ := hnodes
    refine ⟨label, id, bound, ?_, hbound, haccepts⟩
    cases found
    cases hentry
    rfl
  · rintro ⟨label, id, bound, rfl, hbound, haccepts⟩
    exact ⟨rfl, by simp [Match.ids, hbound, haccepts]⟩

/-- The node of a match that still holds and whose label was found. -/
theorem accepted_of_stillMatches (h : pattern.IsSingle node)
    (hmatches : pattern.stillMatches graph found = true) {label : String} {id : NodeId}
    (hrequire : found.require label = .ok id) :
    ∃ bound, graph.node? id = some bound ∧ node.accepts bound = true := by
  obtain ⟨own, first, bound, rfl, hbound, haccepts⟩ := (stillMatches_of_isSingle h).mp hmatches
  unfold Match.require Match.get? at hrequire
  by_cases hlabel : label == own
  · simp only [List.lookup_cons, hlabel] at hrequire
    cases hrequire
    exact ⟨bound, hbound, haccepts⟩
  · simp only [List.lookup_cons, hlabel, List.lookup_nil] at hrequire
    cases hrequire

/-- An accepted node has the type that the pattern asks for. -/
theorem opType_of_accepts {bound : Node} {opType : String} (htype : node.opType = some opType)
    (h : node.accepts bound = true) : bound.opType = opType := by
  unfold NodePattern.accepts at h
  rw [htype] at h
  simp only [Option.all_some, Bool.and_eq_true, decide_eq_true_eq] at h
  exact h.1

/-- The node of a match that still holds has the type that the pattern asks for. -/
theorem ofType_of_stillMatches (h : pattern.IsSingle node) {opType : String}
    (htype : node.opType = some opType) (hmatches : pattern.stillMatches graph found = true)
    {label : String} {id : NodeId} (hrequire : found.require label = .ok id) :
    graph.OfType id opType := by
  obtain ⟨bound, hbound, haccepts⟩ := accepted_of_stillMatches h hmatches hrequire
  intro bare hbare
  rw [Graph.bare?_of_node? hbound] at hbare
  cases hbare
  exact opType_of_accepts htype haccepts

end OpGraph.Pattern
