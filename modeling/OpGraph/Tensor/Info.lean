/-!
# Tensor information

What is known about the tensor on an output port: its shape, in which a negative
extent stands for one that is fixed only at run time, and its value where that
is a constant list of integers.
-/

namespace OpGraph

/-- Extents of a tensor by axis; a negative extent is not known statically. -/
abbrev Shape := List Int

/-- Knowledge about a tensor. -/
structure TensorInfo where
  /-- Extents, if the shape is known. -/
  shape : Option Shape
  /-- Elements, if the tensor is a known constant. -/
  value : Option (List Int)
  deriving DecidableEq

namespace TensorInfo

/-- Nothing is known. -/
def unknown : TensorInfo := ⟨none, none⟩

/-- A known shape without a value. -/
def ofShape (shape : Shape) : TensorInfo := ⟨some shape, none⟩

/-- A known list of elements, which also is the one extent of its shape. -/
def ofValue (value : List Int) : TensorInfo := ⟨some [(value.length : Int)], some value⟩

/-- Something is known. -/
def isResolved (info : TensorInfo) : Bool :=
  info.shape.isSome || info.value.isSome

end TensorInfo

end OpGraph
