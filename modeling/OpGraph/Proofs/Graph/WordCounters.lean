import OpGraph.Proofs.Graph.Change

/-!
# Counters of 32 bits

Nodes and connections are numbered without bound here. A counter of 32 bits comes around after
4294967296 numbers, and then hands out numbers again that may still be in use. As counters never go
back, all graphs on the way to one whose counters fit into words have counters that do, and each
single change on the way is the same with counters that come around. Nothing is said of graphs
beyond that.
-/

namespace OpGraph.Graph

variable {graph changed : Graph}

/-- Both counters fit into 32-bit words, so that none has come around. -/
structure CountersFit (graph : Graph) : Prop where
  /-- The number of the next node is a word. -/
  nextNode : graph.nextNode < 4294967296
  /-- The number of the next connection is a word. -/
  nextConnection : graph.nextConnection < 4294967296

instance : Decidable graph.CountersFit :=
  decidable_of_iff (graph.nextNode < 4294967296 ∧ graph.nextConnection < 4294967296)
    ⟨fun h => ⟨h.1, h.2⟩, fun h => ⟨h.nextNode, h.nextConnection⟩⟩

/-- The graph with counters as 32-bit words hold them. -/
def wrapCounters (graph : Graph) : Graph :=
  { graph with
    nextNode := graph.nextNode % 4294967296
    nextConnection := graph.nextConnection % 4294967296 }

/-- A single change with counters that come around. -/
def WordChange (graph changed : Graph) : Prop :=
  ∃ exact, graph.Change exact ∧ changed = exact.wrapCounters

/-- Any number of changes with counters that come around. -/
def WordChanges : Graph → Graph → Prop := Relation.ReflTransGen WordChange

/-- Counters that fit are what words hold. -/
theorem CountersFit.wrapCounters_eq (h : graph.CountersFit) : graph.wrapCounters = graph := by
  unfold wrapCounters
  rw [Nat.mod_eq_of_lt h.nextNode, Nat.mod_eq_of_lt h.nextConnection]

/-- Counters fit before they fit later. -/
theorem CountersFit.of_later (hfit : changed.CountersFit) (h : graph.Later changed) :
    graph.CountersFit :=
  ⟨Nat.lt_of_le_of_lt h.nextNode hfit.nextNode,
    Nat.lt_of_le_of_lt h.nextConnection hfit.nextConnection⟩

/-- Changes to a graph whose counters fit are the same in words. -/
theorem Changes.wordChanges (h : graph.Changes changed) (hfit : changed.CountersFit) :
    graph.WordChanges changed := by
  induction h with
  | refl => exact .refl
  | tail _ hlast ih =>
    exact (ih (hfit.of_later (.of_change hlast))).tail ⟨_, hlast, hfit.wrapCounters_eq.symm⟩

end OpGraph.Graph
