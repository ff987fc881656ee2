import OpGraph.Infer.Basic
import OpGraph.Tensor.Shape

/-!
# Inference of poolings

The input of a pooling is a batch of feature maps: two leading axes, which stay as
they are, and one spatial axis for each extent of the window. A global pooling
leaves one element on each spatial axis. All output ports get the same shape.

The arithmetic on an axis is that of unbounded integers. In 64-bit words it comes to
the same as long as each number that it passes through fits into a word; beyond that
nothing is said of words here.
-/

namespace OpGraph.Infer

/-- What determines the output extent on one spatial axis. -/
structure PoolAxis where
  /-- Extent of the input. -/
  extent : Int
  /-- Extent of the window. -/
  window : Int
  /-- Distance between window positions. -/
  stride : Int
  /-- Padding before and after the input together. -/
  padding : Int

/-- The axes, from lists with one entry for each; pads hold all begins before all ends. -/
def poolAxes (extents window stride pads : List Int) : List PoolAxis :=
  let padding := List.zipWith (· + ·) (pads.take window.length) (pads.drop window.length)
  (extents.zip (window.zip (stride.zip padding))).map fun (e, w, s, p) => ⟨e, w, s, p⟩

/-- Output extent on one axis. Automatic padding keeps one output element for each stride. -/
def PoolAxis.outputExtent (axis : PoolAxis) (autoPad roundUp : Bool) : Except GraphError Int :=
  if autoPad then
    .ok (if axis.extent < 0 then -1 else (axis.extent + axis.stride - 1) / axis.stride)
  else pooledExtent axis.extent axis.window axis.stride axis.padding roundUp

/-- First axis on which the window or the stride is not positive. -/
def degenerateAxis? (window stride : List Int) : Option ((Int × Int) × Nat) :=
  (window.zip stride).zipIdx.find? fun ((w, s), _) => s ≤ 0 || w ≤ 0

/-- Poolings of either method, canonical or not, with the given arithmetic on each axis. -/
def poolingWith (extentOf : PoolAxis → Bool → Bool → Except GraphError Int) : InferFn :=
    fun node inputs => do
  let input ← inputShape node inputs 0
  let window ← requireInts node "window"
  let rank := window.length
  if input.length ≠ rank + 2 then throw (fault node (.windowRank rank input.length))
  let leading := input.take 2
  if node.attributes.isSet "global_pool" then
    return replicate node (.ofShape (leading ++ List.replicate rank 1))
  let stride := (node.attributes.ints? "stride").getD (List.replicate rank 1)
  let pads := (node.attributes.ints? "pad").getD (List.replicate (2 * rank) 0)
  if stride.length ≠ rank ∨ pads.length ≠ 2 * rank then throw (fault node .windowLists)
  if let some ((w, s), axis) := degenerateAxis? window stride then
    throw (fault node (.windowAxis w s axis))
  let roundUp := node.attributes.str? "rounding_type" = some "ceil"
  let autoPad := ["same_upper", "same_lower"].any fun mode =>
    node.attributes.str? "auto_pad" = some mode
  let extents ← (poolAxes (input.drop 2) window stride pads).mapM (extentOf · autoPad roundUp)
  return replicate node (.ofShape (leading ++ extents))

/-- Poolings of either method, canonical or not. -/
def pooling : InferFn := poolingWith PoolAxis.outputExtent

end OpGraph.Infer
