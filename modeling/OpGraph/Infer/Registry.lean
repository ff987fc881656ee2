import OpGraph.Infer.Gather
import OpGraph.Infer.Pooling
import OpGraph.Infer.PriorBox

/-!
# Inference functions by operator type

A table with one inference function for each operator type that can stand in a
graph. Registering a type a second time replaces its function.
-/

namespace OpGraph

/-- The functions of all operator types that extraction and the passes produce. -/
def InferRegistry.standard : InferRegistry :=
  .ofList <|
    [("Parameter", Infer.parameter), ("Const", Infer.const), ("ShapeOf", Infer.shapeOf),
      ("AttributedGather", Infer.attributedGather), ("Gather", Infer.gather),
      ("Pooling", Infer.pooling), ("MaxPool", Infer.pooling), ("AvgPool", Infer.pooling),
      ("MultiBoxPrior", Infer.multiBoxPrior), ("Result", Infer.result)] ++
    Infer.elementwiseTypes.map fun opType => (opType, Infer.elementwise)

end OpGraph
