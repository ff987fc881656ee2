import OpGraph.Source.Extract

/-!
# Extractors by format and operator

A table with one extractor for each operator of each format. An entry can be switched
off, and then counts as unsupported without losing its place.
-/

namespace OpGraph

/-- Extractor of one operator. -/
structure ExtractorEntry where
  /-- Reader of the records. -/
  extract : ExtractFn
  /-- Whether the entry is in use. -/
  enabled : Bool

/-- Extractor of each operator of each format, in the order of registration. -/
abbrev ExtractorRegistry := OrderedMap (SourceFormat × String) ExtractorEntry

namespace ExtractorRegistry

/-- Register an extractor; an entry of the same operator is replaced in its place. -/
def register (registry : ExtractorRegistry) (format : SourceFormat) (operator : String)
    (extract : ExtractFn) (enabled : Bool) : ExtractorRegistry :=
  registry.insert (format, operator) ⟨extract, enabled⟩

/-- Switch an entry on or off, or nothing if there is no such entry. -/
def setEnabled? (registry : ExtractorRegistry) (format : SourceFormat) (operator : String)
    (enabled : Bool) : Option ExtractorRegistry :=
  if registry.contains (format, operator) then
    some (registry.modify (format, operator) fun entry => { entry with enabled })
  else none

/-- Extractor in use for an operator. -/
def find? (registry : ExtractorRegistry) (format : SourceFormat) (operator : String) :
    Option ExtractFn :=
  ((registry.get? (format, operator)).filter (·.enabled)).map (·.extract)

/-- Read one record of an operator. -/
def extract (registry : ExtractorRegistry) (format : SourceFormat) (operator : String)
    (record : RawRecord) : Except GraphError Extracted :=
  match registry.find? format operator with
  | some extract => extract record
  | none => .error (.unsupportedOperator format operator)

/-- The extractors of this library. -/
def standard : ExtractorRegistry :=
  .ofList <|
    [("Gather", Onnx.gather), ("MaxPool", Onnx.maxPool), ("AveragePool", Onnx.averagePool),
      ("Relu", Onnx.relu), ("Identity", Onnx.identity), ("Shape", Onnx.shape)].map
      (fun (operator, extract) => ((.onnx, operator), ⟨extract, true⟩)) ++
    [("Pooling", Mxnet.pooling), ("_contrib_MultiBoxPrior", Mxnet.multiBoxPrior),
      ("Activation", Mxnet.activation)].map
      fun (operator, extract) => ((.mxnet, operator), ⟨extract, true⟩)

end ExtractorRegistry

end OpGraph
