import OpGraph.Infer.Registry
import OpGraph.Proofs.Edit.Outcome

/-!
# When inference functions succeed

A function of the standard registry looks at the attributes of the node and at what is known
about its inputs, and says the same about every output port. The name and the type of the node
show in errors only. The lemmas of this module say when each function succeeds and with what.
-/

namespace OpGraph.Infer

variable {node other : Node} {inputs outputs : List TensorInfo} {info : TensorInfo}

/-- The function says the same about all output ports, whatever their number. What it says is
resolved and depends on the attributes and the inputs alone. -/
def Uniform (f : InferFn) : Prop :=
  ∀ node inputs outputs, f node inputs = .ok outputs → ∃ info : TensorInfo, info.isResolved = true ∧
    ∀ other : Node, other.attributes = node.attributes → f other inputs = .ok (replicate other info)

/-! ### Checks -/

/-- A value is required with success exactly if it is there. -/
@[simp] theorem require_eq_ok_iff {α : Type} {reason : NodeFault} {found : Option α} {value : α} :
    require node reason found = .ok value ↔ found = some value := by
  cases found <;> simp [require]

@[simp] theorem inputShape_eq_ok_iff {index : Nat} {shape : Shape} :
    inputShape node inputs index = .ok shape ↔ inputs[index]?.bind (·.shape) = some shape :=
  require_eq_ok_iff

@[simp] theorem inputValue_eq_ok_iff {index : Nat} {value : List Int} :
    inputValue node inputs index = .ok value ↔ inputs[index]?.bind (·.value) = some value :=
  require_eq_ok_iff

@[simp] theorem requireInts_eq_ok_iff {name : String} {value : List Int} :
    requireInts node name = .ok value ↔ node.attributes.ints? name = some value :=
  require_eq_ok_iff

/-! ### Operators without arithmetic -/

theorem parameter_eq_ok_iff : parameter node inputs = .ok outputs ↔
    ∃ shape, node.attributes.ints? "shape" = some shape ∧
      outputs = replicate node (.ofShape shape) := by
  unfold parameter
  simp only [Except.bind_eq_ok_iff, requireInts_eq_ok_iff, pure, Except.pure, Except.ok.injEq]
  exact exists_congr fun _ => and_congr_right fun _ => eq_comm

theorem const_eq_ok_iff : const node inputs = .ok outputs ↔
    ∃ value, node.attributes.ints? "value" = some value ∧
      outputs = replicate node { TensorInfo.ofValue value with
        shape := (node.attributes.ints? "shape").or (TensorInfo.ofValue value).shape } := by
  unfold const
  simp only [Except.bind_eq_ok_iff, requireInts_eq_ok_iff, pure, Except.pure, Except.ok.injEq]
  exact exists_congr fun _ => and_congr_right fun _ => eq_comm

theorem shapeOf_eq_ok_iff : shapeOf node inputs = .ok outputs ↔
    ∃ shape, inputs[0]?.bind (·.shape) = some shape ∧
      outputs = replicate node (.ofValue shape) := by
  unfold shapeOf
  simp only [Except.bind_eq_ok_iff, inputShape_eq_ok_iff, pure, Except.pure, Except.ok.injEq]
  exact exists_congr fun _ => and_congr_right fun _ => eq_comm

theorem elementwise_eq_ok_iff : elementwise node inputs = .ok outputs ↔
    ∃ input, inputs.head? = some input ∧ input.isResolved = true ∧
      outputs = replicate node input := by
  unfold elementwise
  simp only [Except.bind_eq_ok_iff, require_eq_ok_iff, Option.filter_eq_some_iff, pure, Except.pure,
    Except.ok.injEq, and_assoc]
  exact exists_congr fun _ => and_congr_right fun _ => and_congr_right fun _ => eq_comm

theorem uniform_parameter : Uniform parameter := fun node inputs outputs h => by
  obtain ⟨shape, hshape, _⟩ := parameter_eq_ok_iff.mp h
  exact ⟨_, rfl, fun other hattributes => parameter_eq_ok_iff.mpr ⟨shape, hattributes ▸ hshape, rfl⟩⟩

theorem uniform_const : Uniform const := fun node inputs outputs h => by
  obtain ⟨value, hvalue, _⟩ := const_eq_ok_iff.mp h
  refine ⟨_, ?_, fun other hattributes =>
    const_eq_ok_iff.mpr ⟨value, hattributes ▸ hvalue, by rw [hattributes]⟩⟩
  simp [TensorInfo.isResolved, TensorInfo.ofValue]

theorem uniform_shapeOf : Uniform shapeOf := fun node inputs outputs h => by
  obtain ⟨shape, hshape, _⟩ := shapeOf_eq_ok_iff.mp h
  exact ⟨_, rfl, fun other _ => shapeOf_eq_ok_iff.mpr ⟨shape, hshape, rfl⟩⟩

theorem uniform_elementwise : Uniform elementwise := fun node inputs outputs h => by
  obtain ⟨input, hinput, hresolved, _⟩ := elementwise_eq_ok_iff.mp h
  exact ⟨input, hresolved, fun other _ => elementwise_eq_ok_iff.mpr ⟨input, hinput, hresolved, rfl⟩⟩

/-! ### Gathers -/

/-- Whether data is folded, and to what, does not depend on the node. -/
theorem foldGather_of_ok {rank : Nat} {data indices value : Option (List Int)}
    (h : foldGather node rank data indices = .ok value) (other : Node) :
    foldGather other rank data indices = .ok value := by
  have hpick : ∀ elements (positions values : List Int),
      positions.mapM (pick node elements) = .ok values →
        positions.mapM (pick other elements) = .ok values := by
    intro elements positions
    induction positions with
    | nil => exact fun values h => h
    | cons position rest ih =>
      intro values h
      rw [List.mapM_cons] at h ⊢
      obtain ⟨first, hfirst, h⟩ := Except.bind_eq_ok_iff.mp h
      obtain ⟨others, hrest, h⟩ := Except.bind_eq_ok_iff.mp h
      refine Except.bind_eq_ok_iff.mpr ⟨first, ?_, Except.bind_eq_ok_iff.mpr ⟨others, ih _ hrest, h⟩⟩
      unfold pick at hfirst ⊢
      rw [require_eq_ok_iff] at hfirst ⊢
      exact hfirst
  unfold foldGather at h ⊢
  split at h
  · split at h
    · obtain ⟨values, hvalues, hvalue⟩ := Except.bind_eq_ok_iff.mp h
      rw [if_pos ‹_›]
      exact Except.bind_eq_ok_iff.mpr ⟨values, hpick _ _ _ hvalues, hvalue⟩
    · rw [if_neg ‹_›]
      exact h
  · exact h

theorem gatherAlong_eq_ok_iff {axis : Int} : gatherAlong node inputs axis = .ok outputs ↔
    ∃ data indices position value, inputs[0]?.bind (·.shape) = some data ∧
      inputs[1]?.bind (·.shape) = some indices ∧ normalizeAxis axis data.length = .ok position ∧
        foldGather node data.length (inputs[0]?.bind (·.value)) (inputs[1]?.bind (·.value)) =
          .ok value ∧
            outputs = replicate node
              ⟨some (data.take position ++ indices ++ data.drop (position + 1)), value⟩ := by
  unfold gatherAlong
  simp only [Except.bind_eq_ok_iff, inputShape_eq_ok_iff, pure, Except.pure, Except.ok.injEq]
  constructor
  · rintro ⟨data, hdata, indices, hindices, position, hposition, value, hvalue, rfl⟩
    exact ⟨data, indices, position, value, hdata, hindices, hposition, hvalue, rfl⟩
  · rintro ⟨data, indices, position, value, hdata, hindices, hposition, hvalue, rfl⟩
    exact ⟨data, hdata, indices, hindices, position, hposition, value, hvalue, rfl⟩

/-- The list goes on as another one does. -/
def FirstTwo (inputs later : List TensorInfo) : Prop :=
  ∀ index info, index < 2 → inputs[index]? = some info → later[index]? = some info

/-- A gather looks at its first two inputs only, and at nothing of the node. -/
theorem gatherAlong_of_ok {axis : Int} (h : gatherAlong node inputs axis = .ok outputs) :
    ∃ info : TensorInfo, info.isResolved = true ∧
      ∀ (other : Node) (later : List TensorInfo), FirstTwo inputs later →
        gatherAlong other later axis = .ok (replicate other info) := by
  obtain ⟨data, indices, position, value, hdata, hindices, hposition, hvalue, _⟩ :=
    gatherAlong_eq_ok_iff.mp h
  refine ⟨_, rfl, fun other later hlater =>
    gatherAlong_eq_ok_iff.mpr ⟨data, indices, position, value, ?_, ?_, hposition, ?_, rfl⟩⟩
  · obtain ⟨first, hfirst, hshape⟩ := Option.bind_eq_some_iff.mp hdata
    rw [hlater 0 first (by omega) hfirst]
    exact hshape
  · obtain ⟨second, hsecond, hshape⟩ := Option.bind_eq_some_iff.mp hindices
    rw [hlater 1 second (by omega) hsecond]
    exact hshape
  · obtain ⟨first, hfirst, _⟩ := Option.bind_eq_some_iff.mp hdata
    obtain ⟨second, hsecond, _⟩ := Option.bind_eq_some_iff.mp hindices
    rw [hfirst, hsecond] at hvalue
    rw [hlater 0 first (by omega) hfirst, hlater 1 second (by omega) hsecond]
    exact foldGather_of_ok hvalue other

theorem attributedGather_eq_ok_iff : attributedGather node inputs = .ok outputs ↔
    ∃ axis, node.attributes.int? "axis" = some axis ∧ gatherAlong node inputs axis = .ok outputs := by
  unfold attributedGather
  simp only [Except.bind_eq_ok_iff, require_eq_ok_iff]

theorem gather_eq_ok_iff : gather node inputs = .ok outputs ↔
    ∃ axis, inputs[2]?.bind (·.value) = some [axis] ∧ gatherAlong node inputs axis = .ok outputs := by
  unfold gather
  simp only [Except.bind_eq_ok_iff, inputValue_eq_ok_iff]
  constructor
  · rintro ⟨value, hvalue, h⟩
    split at h
    · exact ⟨_, hvalue, h⟩
    · cases h
  · rintro ⟨axis, hvalue, h⟩
    exact ⟨[axis], hvalue, h⟩

theorem firstTwo_refl (inputs : List TensorInfo) : FirstTwo inputs inputs := fun _ _ _ h => h

theorem uniform_attributedGather : Uniform attributedGather := fun node inputs outputs h => by
  obtain ⟨axis, haxis, h⟩ := attributedGather_eq_ok_iff.mp h
  obtain ⟨info, hresolved, hall⟩ := gatherAlong_of_ok h
  exact ⟨info, hresolved, fun other hattributes => attributedGather_eq_ok_iff.mpr
    ⟨axis, hattributes ▸ haxis, hall other inputs (firstTwo_refl inputs)⟩⟩

theorem uniform_gather : Uniform gather := fun node inputs outputs h => by
  obtain ⟨axis, haxis, h⟩ := gather_eq_ok_iff.mp h
  obtain ⟨info, hresolved, hall⟩ := gatherAlong_of_ok h
  exact ⟨info, hresolved, fun other _ => gather_eq_ok_iff.mpr
    ⟨axis, haxis, hall other inputs (firstTwo_refl inputs)⟩⟩

/-! ### Poolings -/

theorem pooling_eq_ok_iff : pooling node inputs = .ok outputs ↔
    ∃ input window, inputs[0]?.bind (·.shape) = some input ∧
      node.attributes.ints? "window" = some window ∧ input.length = window.length + 2 ∧
        ((node.attributes.isSet "global_pool" = true ∧
          outputs = replicate node (.ofShape (input.take 2 ++ List.replicate window.length 1))) ∨
        (node.attributes.isSet "global_pool" = false ∧
          ∃ stride pads extents,
            (node.attributes.ints? "stride").getD (List.replicate window.length 1) = stride ∧
            (node.attributes.ints? "pad").getD (List.replicate (2 * window.length) 0) = pads ∧
            stride.length = window.length ∧ pads.length = 2 * window.length ∧
            degenerateAxis? window stride = none ∧
            (poolAxes (input.drop 2) window stride pads).mapM (·.outputExtent
              (["same_upper", "same_lower"].any fun mode =>
                node.attributes.str? "auto_pad" = some mode)
              (node.attributes.str? "rounding_type" = some "ceil")) = .ok extents ∧
            outputs = replicate node (.ofShape (input.take 2 ++ extents)))) := by
  unfold pooling poolingWith
  simp only [Except.bind_eq_ok_iff, inputShape_eq_ok_iff, requireInts_eq_ok_iff]
  constructor
  · rintro ⟨input, hinput, window, hwindow, h⟩
    refine ⟨input, window, hinput, hwindow, ?_⟩
    split at h
    · cases h
    · rename_i hrank
      refine ⟨not_not.mp hrank, ?_⟩
      split at h
      · rename_i hglobal
        cases h
        exact .inl ⟨hglobal, rfl⟩
      · rename_i hglobal
        split at h
        · cases h
        · rename_i hlists
          rw [not_or, not_not, not_not] at hlists
          split at h
          · cases h
          · rename_i hdegenerate
            obtain ⟨extents, hextents, h⟩ := Except.bind_eq_ok_iff.mp h
            cases h
            exact .inr ⟨Bool.not_eq_true _ ▸ hglobal, _, _, extents, rfl, rfl, hlists.1, hlists.2,
              Option.eq_none_iff_forall_ne_some.mpr fun found => hdegenerate found.1.1 found.1.2 found.2,
              hextents, rfl⟩
  · rintro ⟨input, window, hinput, hwindow, hrank, hrest⟩
    refine ⟨input, hinput, window, hwindow, ?_⟩
    rw [if_neg (not_not.mpr hrank)]
    obtain ⟨hglobal, rfl⟩ | ⟨hglobal, _, _, extents, rfl, rfl, hstride, hpads, hdegenerate, hextents,
      rfl⟩ := hrest
    · rw [if_pos hglobal]
      rfl
    · have hlists := not_or.mpr ⟨not_not.mpr hstride, not_not.mpr hpads⟩
      rw [if_neg (by rw [hglobal]; decide), if_neg hlists, hdegenerate]
      exact Except.bind_eq_ok_iff.mpr ⟨extents, hextents, rfl⟩

/-- The attributes that determine what comes out of a pooling. -/
def poolingAttributes : List String :=
  ["window", "global_pool", "stride", "pad", "rounding_type", "auto_pad"]

/-- A pooling looks at its own attributes only. -/
theorem pooling_of_ok (h : pooling node inputs = .ok outputs) :
    ∃ info : TensorInfo, info.isResolved = true ∧ ∀ other : Node,
      (∀ name ∈ poolingAttributes, other.attributes.get? name = node.attributes.get? name) →
        pooling other inputs = .ok (replicate other info) := by
  obtain ⟨input, window, hinput, hwindow, hrank, hrest⟩ := pooling_eq_ok_iff.mp h
  have hsame : ∀ other : Node,
      (∀ name ∈ poolingAttributes, other.attributes.get? name = node.attributes.get? name) →
        (∀ name ∈ poolingAttributes, other.attributes.ints? name = node.attributes.ints? name) ∧
        (∀ name ∈ poolingAttributes, other.attributes.str? name = node.attributes.str? name) ∧
        ∀ name ∈ poolingAttributes, other.attributes.isSet name = node.attributes.isSet name := by
    intro other hattributes
    refine ⟨fun name hname => ?_, fun name hname => ?_, fun name hname => ?_⟩
    · rw [Attributes.ints?, Attributes.ints?, hattributes name hname]
    · rw [Attributes.str?, Attributes.str?, hattributes name hname]
    · rw [Attributes.isSet, Attributes.isSet, hattributes name hname]
  obtain ⟨hglobal, _⟩ | ⟨hglobal, stride, pads, extents, hstride, hpads, hlengthStride, hlengthPads,
    hdegenerate, hextents, _⟩ := hrest
  · refine ⟨.ofShape (input.take 2 ++ List.replicate window.length 1), rfl,
      fun other hattributes => ?_⟩
    obtain ⟨hints, _, hset⟩ := hsame other hattributes
    refine pooling_eq_ok_iff.mpr ⟨input, window, hinput, ?_, hrank, .inl ⟨?_, rfl⟩⟩
    · rw [hints _ (by simp [poolingAttributes]), hwindow]
    · rw [hset _ (by simp [poolingAttributes]), hglobal]
  · refine ⟨.ofShape (input.take 2 ++ extents), rfl, fun other hattributes => ?_⟩
    obtain ⟨hints, hstr, hset⟩ := hsame other hattributes
    refine pooling_eq_ok_iff.mpr ⟨input, window, hinput, ?_, hrank, .inr ⟨?_, stride, pads, extents,
      ?_, ?_, hlengthStride, hlengthPads, hdegenerate, ?_, rfl⟩⟩
    · rw [hints _ (by simp [poolingAttributes]), hwindow]
    · rw [hset _ (by simp [poolingAttributes]), hglobal]
    · rw [hints _ (by simp [poolingAttributes]), hstride]
    · rw [hints _ (by simp [poolingAttributes]), hpads]
    · rw [hstr "auto_pad" (by simp [poolingAttributes]),
        hstr "rounding_type" (by simp [poolingAttributes])]
      exact hextents

theorem uniform_pooling : Uniform pooling := fun _ _ _ h => by
  obtain ⟨info, hresolved, hall⟩ := pooling_of_ok h
  exact ⟨info, hresolved, fun other hattributes => hall other fun _ _ => by rw [hattributes]⟩

/-! ### Prior boxes -/

/-- The number of boxes does not depend on name and type of the node. -/
theorem priorCount_of_ok {priors : Nat} (h : priorCount node = .ok priors)
    (hattributes : other.attributes = node.attributes) : priorCount other = .ok priors := by
  unfold priorCount at h ⊢
  obtain ⟨smallest, hsmallest, h⟩ := Except.bind_eq_ok_iff.mp h
  obtain ⟨ratios, hratios, h⟩ := Except.bind_eq_ok_iff.mp h
  rw [require_eq_ok_iff] at hsmallest hratios
  refine Except.bind_eq_ok_iff.mpr ⟨smallest, by rw [require_eq_ok_iff, hattributes, hsmallest],
    Except.bind_eq_ok_iff.mpr ⟨ratios, by rw [require_eq_ok_iff, hattributes, hratios], ?_⟩⟩
  rw [hattributes]
  dsimp only at h ⊢
  split at h
  · cases h
  · rw [if_neg ‹_›]
    split at h
    · cases h
    · rw [if_neg ‹_›]
      exact h

/-- In the legacy layout the grid is a constant. -/
theorem priorGrid_legacy_eq_ok_iff {extents : Int × Int} :
    priorGrid node inputs .legacy = .ok extents ↔
      inputs[0]?.bind (·.value) = some [extents.1, extents.2] := by
  unfold priorGrid
  simp only [Except.bind_eq_ok_iff, inputValue_eq_ok_iff]
  constructor
  · rintro ⟨value, hvalue, hok⟩
    split at hok
    · cases hok
      exact hvalue
    · cases hok
  · exact fun hvalue => ⟨_, hvalue, rfl⟩

/-- In the current layout the grid is made of the last two extents. -/
theorem priorGrid_current_eq_ok_iff {extents : Int × Int} :
    priorGrid node inputs .current = .ok extents ↔
      ∃ batch channels, inputs[0]?.bind (·.shape) = some [batch, channels, extents.1, extents.2] := by
  unfold priorGrid
  simp only [Except.bind_eq_ok_iff, inputShape_eq_ok_iff]
  constructor
  · rintro ⟨shape, hshape, hok⟩
    split at hok
    · cases hok
      exact ⟨_, _, hshape⟩
    · cases hok
  · rintro ⟨_, _, hshape⟩
    exact ⟨_, hshape, rfl⟩

theorem priorGrid_of_ok {layout : PriorLayout} {extents : Int × Int}
    (h : priorGrid node inputs layout = .ok extents) (other : Node) :
    priorGrid other inputs layout = .ok extents := by
  cases layout with
  | legacy => exact priorGrid_legacy_eq_ok_iff.mpr (priorGrid_legacy_eq_ok_iff.mp h)
  | current => exact priorGrid_current_eq_ok_iff.mpr (priorGrid_current_eq_ok_iff.mp h)

theorem priorSize_of_ok {height width size : Int} {priors : Nat}
    (h : priorSize node height width priors = .ok size) (other : Node) :
    priorSize other height width priors = .ok size := by
  unfold priorSize at h ⊢
  split at h
  · rw [if_pos ‹_›]
    exact h
  · rw [if_neg ‹_›]
    rw [require_eq_ok_iff] at h ⊢
    exact h

/-- Shape of the boxes, by layout and number of coordinates. -/
def priorShape : PriorLayout → Int → Shape
  | .legacy, size => [2, size]
  | .current, size => [1, 2, size]

theorem multiBoxPrior_eq_ok_iff : multiBoxPrior node inputs = .ok outputs ↔
    ∃ priors extents size, priorCount node = .ok priors ∧
      priorGrid node inputs (PriorLayout.of node) = .ok extents ∧
        priorSize node extents.1 extents.2 priors = .ok size ∧
          outputs = replicate node (.ofShape (priorShape (PriorLayout.of node) size)) := by
  unfold multiBoxPrior
  simp only [Except.bind_eq_ok_iff, pure, Except.pure, Except.ok.injEq]
  constructor
  · rintro ⟨priors, hpriors, ⟨height, width⟩, hgrid, size, hsize, rfl⟩
    exact ⟨priors, _, size, hpriors, hgrid, hsize, by cases PriorLayout.of node <;> rfl⟩
  · rintro ⟨priors, ⟨height, width⟩, size, hpriors, hgrid, hsize, rfl⟩
    exact ⟨priors, hpriors, _, hgrid, size, hsize, by cases PriorLayout.of node <;> rfl⟩

theorem uniform_multiBoxPrior : Uniform multiBoxPrior := fun node inputs outputs h => by
  obtain ⟨priors, extents, size, hpriors, hgrid, hsize, _⟩ := multiBoxPrior_eq_ok_iff.mp h
  refine ⟨.ofShape (priorShape (PriorLayout.of node) size), rfl, fun other hattributes => ?_⟩
  have hlayout : PriorLayout.of other = PriorLayout.of node := by
    unfold PriorLayout.of
    rw [hattributes]
  exact multiBoxPrior_eq_ok_iff.mpr ⟨priors, extents, size, priorCount_of_ok hpriors hattributes,
    hlayout ▸ priorGrid_of_ok hgrid other, priorSize_of_ok hsize other, by rw [hlayout]⟩

/-! ### The standard registry -/

/-- The function of the standard registry for an operator type. -/
inductive StandardFn : String → InferFn → Prop where
  | parameter : StandardFn "Parameter" parameter
  | const : StandardFn "Const" const
  | shapeOf : StandardFn "ShapeOf" shapeOf
  | attributedGather : StandardFn "AttributedGather" attributedGather
  | gather : StandardFn "Gather" gather
  /-- All poolings share their function. -/
  | pooling {opType : String} (type : isPoolingType opType = true) : StandardFn opType pooling
  | multiBoxPrior : StandardFn "MultiBoxPrior" multiBoxPrior
  | result : StandardFn "Result" result
  /-- Whatever is like its input shares a function too. -/
  | elementwise {opType : String} (type : opType ∈ elementwiseTypes) : StandardFn opType elementwise

/-- There are no other functions in the standard registry. -/
theorem standardFn_of_get?_standard {opType : String} {f : InferFn}
    (hf : InferRegistry.standard.get? opType = some f) : StandardFn opType f := by
  rcases List.mem_append.mp (OrderedMap.mem_of_get?_ofList hf) with hmem | hmem
  · simp only [List.mem_cons, Prod.mk.injEq, List.not_mem_nil, or_false] at hmem
    rcases hmem with ⟨rfl, rfl⟩ | ⟨rfl, rfl⟩ | ⟨rfl, rfl⟩ | ⟨rfl, rfl⟩ | ⟨rfl, rfl⟩ | ⟨rfl, rfl⟩ |
      ⟨rfl, rfl⟩ | ⟨rfl, rfl⟩ | ⟨rfl, rfl⟩ | ⟨rfl, rfl⟩
    · exact .parameter
    · exact .const
    · exact .shapeOf
    · exact .attributedGather
    · exact .gather
    · exact .pooling (by decide)
    · exact .pooling (by decide)
    · exact .pooling (by decide)
    · exact .multiBoxPrior
    · exact .result
  · obtain ⟨_, htype, hsame⟩ := List.mem_map.mp hmem
    cases hsame
    exact .elementwise htype

/-- The operator types of poolings have no other function. -/
theorem StandardFn.eq_pooling {opType : String} {f : InferFn} (h : StandardFn opType f)
    (htype : isPoolingType opType = true) : f = Infer.pooling := by
  cases h with
  | pooling => rfl
  | elementwise hother =>
    have hnone : ∀ other ∈ elementwiseTypes, isPoolingType other = false := by decide
    rw [hnone opType hother] at htype
    cases htype
  | _ => exact absurd htype (by decide)

/-- Every function of the standard registry but that of graph outputs is uniform. -/
theorem uniform_of_get?_standard {opType : String} {f : InferFn}
    (hf : InferRegistry.standard.get? opType = some f) :
    Uniform f ∨ (opType = "Result" ∧ f = result) := by
  cases standardFn_of_get?_standard hf with
  | parameter => exact .inl uniform_parameter
  | const => exact .inl uniform_const
  | shapeOf => exact .inl uniform_shapeOf
  | attributedGather => exact .inl uniform_attributedGather
  | gather => exact .inl uniform_gather
  | pooling => exact .inl uniform_pooling
  | multiBoxPrior => exact .inl uniform_multiBoxPrior
  | result => exact .inr ⟨rfl, rfl⟩
  | elementwise => exact .inl uniform_elementwise

end OpGraph.Infer
