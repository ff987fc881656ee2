import OpGraph.Source.Reader

/-!
# Extraction

An extractor turns the record of one source operator into a canonical operator type
with attributes, and says how many ports the operator has at least. This module holds
the extractors of both formats.
-/

namespace OpGraph

/-- Canonical form of one source operator. -/
structure Extracted where
  /-- Operator type in the graph. -/
  opType : String
  /-- Attributes of the node. -/
  attributes : Attributes := .empty
  /-- Least number of input ports. -/
  inputs : Nat := 1
  /-- Least number of output ports. -/
  outputs : Nat := 1

/-- Reader of the records of one operator. -/
abbrev ExtractFn := RawRecord → Except GraphError Extracted

/-- How a pooling rounds the number of window positions. -/
def roundingMode (roundUp : Bool) : AttrValue := .str (if roundUp then "ceil" else "floor")

namespace Onnx

/-- A gather keeps its axis as an attribute for the time being. -/
def gather : ExtractFn := fun record => do
  let axis ← record.intOr "axis" 0
  return { opType := "AttributedGather", attributes := .ofList [("axis", .int axis)], inputs := 2 }

/-- Strides and pads must have one entry for each side of each axis. -/
def checkWindow (rank : Nat) (stride pads : List Int) : Except GraphError Unit :=
  if stride.length ≠ rank then .error (.invalidAttribute "strides" .axisCount)
  else if pads.length ≠ 2 * rank then .error (.invalidAttribute "pads" .axisCount)
  else .ok ()

/-- Pooling of either method; pads hold all begins before all ends. -/
def pooling (record : RawRecord) (method : String) (excludePad : Bool) :
    Except GraphError Attributes := do
  let window ← record.requireInts "kernel_shape"
  let rank := window.length
  let stride ← record.intsOr "strides" (List.replicate rank 1)
  let pads ← record.intsOr "pads" (List.replicate (2 * rank) 0)
  let roundUp ← record.intOr "ceil_mode" 0
  let autoPad ← record.strOr "auto_pad" "NOTSET"
  checkWindow rank stride pads
  let entries := [("pool_method", .str method), ("window", .ints window), ("stride", .ints stride),
    ("pad", .ints pads), ("rounding_type", roundingMode (roundUp ≠ 0)),
    ("exclude_pad", .bool excludePad)]
  return .ofList (entries ++
    if autoPad = "NOTSET" then [] else [("auto_pad", .str (autoPad.map Char.toLower))])

/-- A maximum pooling has outputs for the maxima and for their positions. -/
def maxPool : ExtractFn := fun record => do
  return { opType := "Pooling", attributes := ← pooling record "max" false, outputs := 2 }

/-- An average pooling may count the padding in. -/
def averagePool : ExtractFn := fun record => do
  let countPad ← record.intOr "count_include_pad" 0
  return { opType := "Pooling", attributes := ← pooling record "avg" (countPad = 0) }

/-- An operator that is known by its type alone. -/
def plain (opType : String) : ExtractFn := fun _ => .ok { opType }

/-- Rectifier. -/
def relu : ExtractFn := plain "Relu"

/-- Identity. -/
def identity : ExtractFn := plain "Identity"

/-- Shape of a tensor. -/
def shape : ExtractFn := plain "ShapeOf"

end Onnx

namespace Mxnet

/-- Pooling of any method; one pad for each axis counts on both sides. -/
def pooling : ExtractFn := fun record => do
  let window ← record.requireInts "kernel"
  let rank := window.length
  let stride ← record.intsOr "stride" (List.replicate rank 1)
  let pads ← record.intsOr "pad" (List.replicate rank 0)
  let method ← record.strOr "pool_type" "max"
  let convention ← record.strOr "pooling_convention" "valid"
  let isGlobal ← record.boolOr "global_pool" false
  let entries := [("pool_method", .str method), ("window", .ints window), ("stride", .ints stride),
    ("pad", .ints (pads ++ pads)), ("rounding_type", roundingMode (convention = "full")),
    ("global_pool", .bool isGlobal), ("exclude_pad", .bool false)]
  return { opType := "Pooling", attributes := .ofList entries,
           outputs := if method = "max" then 2 else 1 }

/-- Prior boxes. The layout flag is always written, so inference need not guess it. -/
def multiBoxPrior : ExtractFn := fun record => do
  let sizes ← record.floatsOr "sizes" [1.0]
  let ratios ← record.floatsOr "ratios" [1.0]
  let largest ← record.floatsOr "max_sizes" []
  let steps ← record.floatsOr "steps" [-1.0, -1.0]
  let offsets ← record.floatsOr "offsets" [0.5, 0.5]
  let clip ← record.boolOr "clip" false
  let legacy ← record.boolOr "V10_infer" false
  let entries := [("min_size", .floats sizes), ("aspect_ratio", .floats ratios),
    ("max_size", .floats largest), ("step", .float (steps.headD (-1.0))),
    ("offset", .float (offsets.headD 0.5)), ("clip", .bool clip), ("flip", .bool false),
    ("V10_infer", .bool legacy)]
  return { opType := "MultiBoxPrior", attributes := .ofList entries }

/-- Operator type of an activation function. -/
def activationType? (function : String) : Option String :=
  [("relu", "Relu"), ("sigmoid", "Sigmoid"), ("tanh", "Tanh"), ("softrelu", "SoftPlus"),
    ("softsign", "SoftSign")].lookup function

/-- An activation names its function in an attribute. -/
def activation : ExtractFn := fun record => do
  let function ← record.requireStr "act_type"
  match activationType? function with
  | some opType => return { opType }
  | none => throw (.unsupportedOperator .mxnet s!"Activation({function})")

end Mxnet

end OpGraph
