import OpGraph.Proofs.Infer.Function

/-!
# Values that fit their shapes

A constant has as many elements as its shape has room for. Inference functions keep to that: what
they say fits if what they are told fits. Most of them say nothing of values. A measured shape is a
list as long as it is, a copy is what was copied, and a gather is folded along the only axis of its
data, so that it has the shape of its indices and one element for each of them. Only a constant that
declares another shape than that of its value breaks the rule.
-/

namespace OpGraph

/-- If shape and value are known there is an element for each place in the shape. -/
def TensorInfo.Fits (info : TensorInfo) : Prop :=
  ∀ shape value, info.shape = some shape → info.value = some value →
    value.length = shape.elementCount

namespace TensorInfo

theorem fits_unknown : unknown.Fits := fun _ _ hshape => by cases hshape

/-- A shape alone always fits. -/
theorem fits_ofShape (shape : Shape) : (ofShape shape).Fits := fun _ _ _ hvalue => by cases hvalue

/-- A value alone has the shape of a list of its length. -/
theorem fits_ofValue (value : List Int) : (ofValue value).Fits := fun shape elements hshape hvalue => by
  cases hshape
  cases hvalue
  simp [Shape.elementCount]

end TensorInfo

/-- What a node declares of a constant, as far as its attributes are lists of integers. -/
def Node.declared (node : Node) : TensorInfo :=
  ⟨node.attributes.ints? "shape", node.attributes.ints? "value"⟩

namespace Infer

variable {node : Node} {inputs outputs : List TensorInfo} {info : TensorInfo}

/-- The position of an axis is that of an extent. -/
theorem lt_of_normalizeAxis {axis : Int} {rank position : Nat}
    (h : normalizeAxis axis rank = .ok position) : position < rank := by
  unfold normalizeAxis at h
  generalize (if axis < 0 then axis + (rank : Int) else axis) = shifted at h
  dsimp only at h
  split at h
  · cases h
  · cases h
    omega

/-- A folded gather takes one element of a list for each index. -/
theorem length_of_foldGather {rank : Nat} {data indices : Option (List Int)} {value : List Int}
    (h : foldGather node rank data indices = .ok (some value)) :
    rank = 1 ∧ ∃ positions, indices = some positions ∧ value.length = positions.length := by
  unfold foldGather at h
  split at h
  · split at h
    · rename_i positions hrank
      obtain ⟨picked, hpicked, hvalue⟩ := Except.bind_eq_ok_iff.mp h
      cases hvalue
      exact ⟨hrank, positions, rfl, (Except.mapM_eq_ok_iff.mp hpicked).1⟩
    · cases h
  · cases h

/-- What is said about all outputs alike fits everywhere. -/
theorem fits_replicate (h : info.Fits) : ∀ said ∈ replicate node info, said.Fits := fun said hsaid => by
  rw [List.eq_of_mem_replicate hsaid]
  exact h

/-- A gather has the shape of its indices where it is folded. -/
theorem fits_gatherAlong {axis : Int} (hinputs : ∀ info ∈ inputs, info.Fits)
    (h : gatherAlong node inputs axis = .ok outputs) : ∀ info ∈ outputs, info.Fits := by
  obtain ⟨data, indices, position, value, _, hindices, hposition, hvalue, rfl⟩ :=
    gatherAlong_eq_ok_iff.mp h
  refine fits_replicate fun shape elements hshape helements => ?_
  cases hshape
  cases helements
  obtain ⟨hrank, positions, hpositions, hlength⟩ := length_of_foldGather hvalue
  -- The data is a list, so nothing of its shape is left.
  have hfirst : position = 0 := by
    have hlt := lt_of_normalizeAxis hposition
    omega
  have hdropped : data.drop 1 = [] := List.drop_eq_nil_of_le (Nat.le_of_eq hrank)
  obtain ⟨second, hsecond, hshape⟩ := Option.bind_eq_some_iff.mp hindices
  rw [hsecond, Option.bind_some] at hpositions
  rw [hfirst, List.take_zero, hdropped, List.nil_append, List.append_nil, hlength]
  exact hinputs second (List.mem_of_getElem? hsecond) indices positions hshape hpositions

/-- A constant says what it declares, and the shape of its value where it declares none. -/
theorem fits_const (hdeclared : node.declared.Fits) (h : const node inputs = .ok outputs) :
    ∀ info ∈ outputs, info.Fits := by
  obtain ⟨value, hvalue, rfl⟩ := const_eq_ok_iff.mp h
  refine fits_replicate ?_
  cases hshape : node.attributes.ints? "shape" with
  | none => exact TensorInfo.fits_ofValue value
  | some declared =>
    intro shape elements hsame helements
    cases hsame
    cases helements
    exact hdeclared _ _ hshape hvalue

theorem fits_pooling (h : pooling node inputs = .ok outputs) : ∀ info ∈ outputs, info.Fits := by
  obtain ⟨_, _, _, _, _, ⟨_, rfl⟩ | ⟨_, _, _, _, _, _, _, _, _, _, rfl⟩⟩ := pooling_eq_ok_iff.mp h
  · exact fits_replicate (TensorInfo.fits_ofShape _)
  · exact fits_replicate (TensorInfo.fits_ofShape _)

theorem fits_elementwise (hinputs : ∀ info ∈ inputs, info.Fits)
    (h : elementwise node inputs = .ok outputs) : ∀ info ∈ outputs, info.Fits := by
  obtain ⟨input, hinput, _, rfl⟩ := elementwise_eq_ok_iff.mp h
  exact fits_replicate (hinputs input (List.mem_of_mem_head? hinput))

/-- What a standard function says fits if what it is told fits, and if a constant declares a shape
that fits its value. -/
theorem fits_of_get?_standard {opType : String} {f : InferFn}
    (hf : InferRegistry.standard.get? opType = some f) (hinputs : ∀ info ∈ inputs, info.Fits)
    (hdeclared : opType = "Const" → node.declared.Fits) (h : f node inputs = .ok outputs) :
    ∀ info ∈ outputs, info.Fits := by
  cases standardFn_of_get?_standard hf with
  | parameter =>
    obtain ⟨shape, _, rfl⟩ := parameter_eq_ok_iff.mp h
    exact fits_replicate (TensorInfo.fits_ofShape shape)
  | const => exact fits_const (hdeclared rfl) h
  | shapeOf =>
    obtain ⟨shape, _, rfl⟩ := shapeOf_eq_ok_iff.mp h
    exact fits_replicate (TensorInfo.fits_ofValue shape)
  | attributedGather =>
    obtain ⟨_, _, hgather⟩ := attributedGather_eq_ok_iff.mp h
    exact fits_gatherAlong hinputs hgather
  | gather =>
    obtain ⟨_, _, hgather⟩ := gather_eq_ok_iff.mp h
    exact fits_gatherAlong hinputs hgather
  | pooling => exact fits_pooling h
  | multiBoxPrior =>
    obtain ⟨_, _, _, _, _, _, rfl⟩ := multiBoxPrior_eq_ok_iff.mp h
    exact fits_replicate (TensorInfo.fits_ofShape _)
  | result =>
    cases h
    exact fun _ hinfo => absurd hinfo List.not_mem_nil
  | elementwise => exact fits_elementwise hinputs h

end Infer

end OpGraph
