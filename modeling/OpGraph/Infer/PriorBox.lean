import OpGraph.Infer.Basic
import OpGraph.Int64

/-!
# Inference of prior boxes

A prior-box node places boxes of several sizes and ratios at every point of a grid
and puts out four coordinates and four variances for each. Its layout depends on a
flag of the node. In the legacy layout the grid is a constant height and width; in
the current one it is given by the last two extents of a batch of feature maps.
-/

namespace OpGraph.Infer

/-- Layout of a prior-box node. -/
inductive PriorLayout where
  /-- The input holds the height and the width; the output has two rows. -/
  | legacy
  /-- The input has the shape of feature maps; the output is a batch of one. -/
  | current
  deriving DecidableEq

/-- Layout that the flag of a node selects. -/
def PriorLayout.of (node : Node) : PriorLayout :=
  if node.attributes.isSet "V10_infer" then .legacy else .current

/-- Number of boxes at one grid point. -/
def priorCount (node : Node) : Except GraphError Nat := do
  let smallest ← require node (.noAttribute "min_size") (node.attributes.floats? "min_size")
  let ratios ← require node (.noAttribute "aspect_ratio") (node.attributes.floats? "aspect_ratio")
  if smallest.isEmpty || ratios.isEmpty then throw (fault node .noPriorBoxes)
  let largest := (node.attributes.floats? "max_size").getD []
  if !largest.isEmpty && largest.length ≠ smallest.length then
    throw (fault node (.priorSizes largest.length smallest.length))
  return smallest.length + ratios.length - 1

/-- Height and width of the grid. -/
def priorGrid (node : Node) (inputs : List TensorInfo) : PriorLayout → Except GraphError (Int × Int)
  | .legacy => do
    match ← inputValue node inputs 0 with
    | [height, width] => return (height, width)
    | other => throw (fault node (.gridElements other.length))
  | .current => do
    match ← inputShape node inputs 0 with
    | [_, _, height, width] => return (height, width)
    | other => throw (fault node (.gridRank other.length))

/-- Number of coordinates, four for each box; unknown on a grid of unknown size. -/
def priorSize (node : Node) (height width : Int) (priors : Nat) : Except GraphError Int :=
  if height < 0 ∨ width < 0 then .ok (-1)
  else require node (.priorOverflow height width priors)
    (Int64.productOf? height [width, priors, 4])

/-- Boxes on a grid, in the layout of the node. -/
def multiBoxPrior : InferFn := fun node inputs => do
  let priors ← priorCount node
  let layout := PriorLayout.of node
  let (height, width) ← priorGrid node inputs layout
  let size ← priorSize node height width priors
  let shape := match layout with
    | .legacy => [2, size]
    | .current => [1, 2, size]
  return replicate node (.ofShape shape)

end OpGraph.Infer
