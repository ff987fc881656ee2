import OpGraph.Pass.Schedule

/-!
# Running passes

A pass looks for all its matches first and then takes them in turn. Since a change
for one match can spoil another, each match is tested again right before its turn and
counted as stale if it no longer holds. After its turn it must not hold any more,
unless the run does not verify that.
-/

namespace OpGraph

/-- Name of the anchor of a match, empty if the node is gone. -/
def Match.anchorName (found : Match) (graph : Graph) : String :=
  ((found.anchor?.bind graph.node?).map (·.name)).getD ""

namespace Pass

/-- Turn of one match. -/
def applyTo (pass : Pass) (verify : Bool) (stats : PassStats) (found : Match) : Edit PassStats := do
  let graph ← get
  if !pass.pattern.stillMatches graph found then return { stats with stale := stats.stale + 1 }
  let anchor := found.anchorName graph
  pass.apply found
  if verify && pass.pattern.stillMatches (← get) found then
    throw (.passPostcondition pass.name anchor)
  return stats.record anchor

/-- Apply a pass wherever it matches. -/
def run (pass : Pass) (verify : Bool) : Edit PassStats := do
  let matched := pass.pattern.findAll (← get)
  matched.foldlM (pass.applyTo verify) { PassStats.empty with passes := 1, found := matched.length }

end Pass

/-- Run the enabled passes of a registry in their order. An impossible order fails
before the graph is touched. -/
def PassRegistry.run (registry : PassRegistry) (verify : Bool) : Edit PassStats := do
  let order ← Edit.ofExcept registry.schedule
  (order.filterMap registry.get?).foldlM
    (fun stats pass => return stats ++ (← pass.run verify)) PassStats.empty

end OpGraph
