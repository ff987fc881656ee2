import OpGraph.Proofs.Source.Import

/-!
# What the standard extractors make

The standard extractors make operators of a few types, none of which is that of a marker. Every
pooling that one of them makes has an output, and every gather has its axis as an attribute.
-/

namespace OpGraph

/-- Types of the operators that standard extractors make. -/
def Extracted.standardTypes : List String :=
  ["AttributedGather", "Pooling", "ShapeOf", "MultiBoxPrior", "Relu", "Identity", "Sigmoid", "Tanh",
    "SoftPlus", "SoftSign"]

/-- What can be said of every node that a standard extractor asks for. -/
structure Extracted.Standard (item : Extracted) : Prop where
  /-- The type is one of a few. -/
  opType : item.opType ∈ standardTypes
  /-- A pooling has an output. -/
  pooling : item.opType = "Pooling" → 1 ≤ item.outputs
  /-- A gather has an axis. -/
  axis : item.opType = "AttributedGather" → ∃ axis, item.attributes.get? "axis" = some (.int axis)

variable {record : RawRecord} {item : Extracted}

/-- It is no marker. -/
theorem Extracted.Standard.unmarked (h : item.Standard) : item.opType ≠ "FakeOutput" := by
  intro hmarker
  have hmem := h.opType
  rw [hmarker] at hmem
  exact absurd hmem (by decide)

theorem Onnx.standard_gather (h : gather record = .ok item) : item.Standard := by
  obtain ⟨axis, _, hitem⟩ := Except.bind_eq_ok_iff.mp h
  cases hitem
  exact ⟨by simp [Extracted.standardTypes], by simp, fun _ => ⟨axis, rfl⟩⟩

theorem Onnx.standard_maxPool (h : maxPool record = .ok item) : item.Standard := by
  obtain ⟨attributes, _, hitem⟩ := Except.bind_eq_ok_iff.mp h
  cases hitem
  exact ⟨by simp [Extracted.standardTypes], by simp, by simp⟩

theorem Onnx.standard_averagePool (h : averagePool record = .ok item) : item.Standard := by
  obtain ⟨countPad, _, hrest⟩ := Except.bind_eq_ok_iff.mp h
  obtain ⟨attributes, _, hitem⟩ := Except.bind_eq_ok_iff.mp hrest
  cases hitem
  exact ⟨by simp [Extracted.standardTypes], by simp, by simp⟩

theorem Onnx.standard_plain {opType : String} (hmem : opType ∈ Extracted.standardTypes)
    (hgather : opType ≠ "AttributedGather") (h : plain opType record = .ok item) :
    item.Standard := by
  cases h
  exact ⟨hmem, fun _ => Nat.le_refl 1, fun htype => absurd htype hgather⟩

theorem Mxnet.standard_pooling (h : pooling record = .ok item) : item.Standard := by
  obtain ⟨window, _, h⟩ := Except.bind_eq_ok_iff.mp h
  obtain ⟨stride, _, h⟩ := Except.bind_eq_ok_iff.mp h
  obtain ⟨pads, _, h⟩ := Except.bind_eq_ok_iff.mp h
  obtain ⟨method, _, h⟩ := Except.bind_eq_ok_iff.mp h
  obtain ⟨convention, _, h⟩ := Except.bind_eq_ok_iff.mp h
  obtain ⟨isGlobal, _, h⟩ := Except.bind_eq_ok_iff.mp h
  cases h
  refine ⟨by simp [Extracted.standardTypes], fun _ => ?_, by simp⟩
  change 1 ≤ if method = "max" then 2 else 1
  split <;> omega

theorem Mxnet.standard_multiBoxPrior (h : multiBoxPrior record = .ok item) : item.Standard := by
  obtain ⟨sizes, _, h⟩ := Except.bind_eq_ok_iff.mp h
  obtain ⟨ratios, _, h⟩ := Except.bind_eq_ok_iff.mp h
  obtain ⟨largest, _, h⟩ := Except.bind_eq_ok_iff.mp h
  obtain ⟨steps, _, h⟩ := Except.bind_eq_ok_iff.mp h
  obtain ⟨offsets, _, h⟩ := Except.bind_eq_ok_iff.mp h
  obtain ⟨clip, _, h⟩ := Except.bind_eq_ok_iff.mp h
  obtain ⟨legacy, _, h⟩ := Except.bind_eq_ok_iff.mp h
  cases h
  exact ⟨by simp [Extracted.standardTypes], by simp, by simp⟩

theorem Mxnet.standard_activation (h : activation record = .ok item) : item.Standard := by
  obtain ⟨function, _, h⟩ := Except.bind_eq_ok_iff.mp h
  cases htype : activationType? function with
  | none =>
    rw [htype] at h
    cases h
  | some opType =>
    rw [htype] at h
    cases h
    obtain ⟨earlier, later, hlist, _⟩ := List.lookup_eq_some_iff.mp htype
    have hmem : (function, opType) ∈ earlier ++ (function, opType) :: later := by simp
    rw [← hlist] at hmem
    simp only [List.mem_cons, Prod.mk.injEq, List.not_mem_nil, or_false] at hmem
    rcases hmem with ⟨_, rfl⟩ | ⟨_, rfl⟩ | ⟨_, rfl⟩ | ⟨_, rfl⟩ | ⟨_, rfl⟩ <;>
      exact ⟨by simp [Extracted.standardTypes], by simp, by simp⟩

namespace ExtractorRegistry

/-- Whatever the standard registry reads is standard. -/
theorem standard_of_extract {format : SourceFormat} {operator : String}
    (h : standard.extract format operator record = .ok item) : item.Standard := by
  unfold extract find? at h
  cases hentry : standard.get? (format, operator) with
  | none =>
    rw [hentry] at h
    cases h
  | some entry =>
    have hmem := OrderedMap.mem_of_get?_ofList hentry
    rw [hentry] at h
    simp only [List.map_cons, List.map_nil, List.cons_append, List.nil_append, List.mem_cons,
      Prod.mk.injEq, List.not_mem_nil, or_false] at hmem
    rcases hmem with ⟨_, rfl⟩ | ⟨_, rfl⟩ | ⟨_, rfl⟩ | ⟨_, rfl⟩ | ⟨_, rfl⟩ | ⟨_, rfl⟩ | ⟨_, rfl⟩ |
      ⟨_, rfl⟩ | ⟨_, rfl⟩
    · exact Onnx.standard_gather h
    · exact Onnx.standard_maxPool h
    · exact Onnx.standard_averagePool h
    · change Onnx.plain "Relu" record = .ok item at h
      exact Onnx.standard_plain (by simp [Extracted.standardTypes]) (by simp) h
    · change Onnx.plain "Identity" record = .ok item at h
      exact Onnx.standard_plain (by simp [Extracted.standardTypes]) (by simp) h
    · change Onnx.plain "ShapeOf" record = .ok item at h
      exact Onnx.standard_plain (by simp [Extracted.standardTypes]) (by simp) h
    · exact Mxnet.standard_pooling h
    · exact Mxnet.standard_multiBoxPrior h
    · exact Mxnet.standard_activation h

theorem leavesMarkers_standard : SourceModel.LeavesMarkers standard :=
  fun _ _ _ _ h => (standard_of_extract h).unmarked

end ExtractorRegistry

end OpGraph
