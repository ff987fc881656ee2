import OpGraph.Pass.GatherAxis
import OpGraph.Pass.OutputMarker
import OpGraph.Pass.PoolingMethod
import OpGraph.Pass.Schedule

/-!
# Standard passes

The passes that make a graph canonical, in the order of registration.
-/

namespace OpGraph

/-- Resolve markers, then canonize poolings and gathers. -/
def PassRegistry.standard : PassRegistry :=
  [.outputMarkers, .maxPool, .avgPool, .gatherAxis]

end OpGraph
