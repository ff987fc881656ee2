import OpGraph.Error
import OpGraph.Int64
import OpGraph.Tensor.Info

/-!
# Tensor shapes

Element counts, axes and the extents that a pooling window leaves. Extents are
unbounded integers here, which agree with 64-bit words as long as no number on the way
leaves the words, and their division is by positive numbers only. Axes are numbered by
64-bit integers, so a rank that is no such integer has no axis in bounds.
-/

namespace OpGraph

namespace Shape

/-- Number of elements; an unknown extent counts as empty, and no axis at all as one element. -/
def elementCount (shape : Shape) : Nat :=
  shape.foldr (fun extent count => extent.toNat * count) 1

/-- Some extent is fixed only at run time. -/
def isDynamic (shape : Shape) : Bool := shape.any (· < 0)

/-- Extents in brackets, an unknown one as a question mark. -/
def format (shape : Shape) : String :=
  "[" ++ String.intercalate ", " (shape.map fun extent => if extent < 0 then "?" else toString extent)
    ++ "]"

end Shape

/-- Position of an axis, where a negative one counts from the last. The position must lie
below the rank, and the rank must be a 64-bit integer. -/
def normalizeAxis (axis : Int) (rank : Nat) : Except GraphError Nat :=
  let position := if axis < 0 then axis + rank else axis
  if position < 0 ∨ (rank : Int) ≤ position ∨ Int64.greatest < rank then
    .error (.shapeInferenceFailed (.axisOutOfBounds axis rank))
  else .ok position.toNat

/-- Number of window positions along one axis of an input that is padded by `padding` in
total. Rounding up admits a last window that reaches past the end. An unknown
extent stays unknown. -/
def pooledExtent (extent window stride padding : Int) (roundUp : Bool) : Except GraphError Int :=
  if extent < 0 then .ok (-1)
  else if window ≤ 0 ∨ stride ≤ 0 then
    .error (.shapeInferenceFailed (.degenerateWindow window stride))
  else
    let slack := extent + padding - window
    if slack < 0 then
      .error (.shapeInferenceFailed (.oversizedWindow window (extent + padding)))
    else .ok ((if roundUp then slack + stride - 1 else slack) / stride + 1)

/-- The operator types that slide a window over spatial axes. -/
def isPoolingType (opType : String) : Bool := ["Pooling", "MaxPool", "AvgPool"].contains opType

end OpGraph
