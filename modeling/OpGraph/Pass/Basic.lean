import OpGraph.Graph.Edit
import OpGraph.Pattern.Match

/-!
# Passes

A pass changes a graph wherever a pattern matches. Its name and the names of the
passes that it wants to follow or to precede decide when it runs.
-/

namespace OpGraph

/-- A change of the graph for each match of a pattern. -/
structure Pass where
  /-- Name by which other passes refer to this one. -/
  name : String
  /-- Whether the pass takes part in a run. -/
  enabled : Bool
  /-- Where the pass applies. -/
  pattern : Pattern
  /-- Passes that must have run before. -/
  after : List String
  /-- Passes that must run later. -/
  before : List String
  /-- What the pass does with a match. -/
  apply : Match → Edit Unit

/-- Counts of one or more runs of passes. -/
structure PassStats where
  /-- Passes that ran. -/
  passes : Nat
  /-- Matches found when the passes started. -/
  found : Nat
  /-- Matches to which a pass was applied. -/
  applied : Nat
  /-- Matches that an earlier change of the same pass made void. -/
  stale : Nat
  /-- Names of the anchors of applied matches, as they were before the change. -/
  anchors : List String
  deriving DecidableEq

namespace PassStats

/-- Nothing counted yet. -/
def empty : PassStats := ⟨0, 0, 0, 0, []⟩

/-- Count one applied match. -/
def record (stats : PassStats) (anchor : String) : PassStats :=
  { stats with applied := stats.applied + 1, anchors := stats.anchors ++ [anchor] }

/-- Counts of two runs, one after the other. -/
def append (first second : PassStats) : PassStats :=
  ⟨first.passes + second.passes, first.found + second.found, first.applied + second.applied,
    first.stale + second.stale, first.anchors ++ second.anchors⟩

instance : Append PassStats := ⟨append⟩

end PassStats

/-- Node bound to a label, which must be bound. -/
def Match.require (found : Match) (label : String) : Except GraphError NodeId :=
  match found.get? label with
  | some id => .ok id
  | none => .error (.internal (.unboundLabel label))

end OpGraph
