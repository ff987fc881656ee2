import OpGraph.Proofs.Infer.WordExtents

/-!
# Open extents

An extent that is negative is open until run time. Inference that is given more, with open extents
fixed and everything else as it was, finds out more in the same sense. What the node itself leaves
open stays open, for no input can fix it. A constant stays the same constant, except the shape of a
tensor as a constant: it holds the open extents of that shape, which are fixed as those of a shape
are.

Poolings are the only functions with arithmetic that no check keeps within 64-bit words. What is
said of them goes for words as long as no number leaves the words when the finer input is pooled.
-/

namespace OpGraph

/-- An extent that was open is fixed, and one that was fixed is the same. -/
def ExtentRefines (coarse fine : Int) : Prop := if 0 ≤ coarse then fine = coarse else 0 ≤ fine

/-- Either both shapes are known or none is, they have the same rank, and open extents are fixed. -/
def ShapeRefines (coarse fine : Option Shape) : Prop :=
  Option.Rel (List.Forall₂ ExtentRefines) coarse fine

/-- What is constant is the same constant. -/
def ValueKept (coarse fine : Option (List Int)) : Prop :=
  ∀ value, coarse = some value → fine = some value

/-- Open extents of the shape are fixed, and everything else that is known is the same. -/
structure TensorInfo.Refines (coarse fine : TensorInfo) : Prop where
  /-- The finer shape. -/
  shape : ShapeRefines coarse.shape fine.shape
  /-- A constant stays. -/
  value : ValueKept coarse.value fine.value

namespace Infer

/-- The node has an extent open that its inputs cannot fix: the declared shape of a graph input or
of a constant has one, or the constant grid of prior boxes does. -/
def DeclaresOpen (opType : String) (node : Node) (inputs : List TensorInfo) : Prop :=
  ((opType = "Parameter" ∨ opType = "Const") ∧
      ∃ shape, node.attributes.ints? "shape" = some shape ∧ ∃ extent ∈ shape, extent < 0) ∨
    (opType = "MultiBoxPrior" ∧ PriorLayout.of node = .legacy ∧
      ∃ grid, inputs[0]?.bind (·.value) = some grid ∧ ∃ extent ∈ grid, extent < 0)

/-- A shape with an open extent is taken for a constant. -/
def MeasuresOpen (opType : String) (inputs : List TensorInfo) : Prop :=
  opType = "ShapeOf" ∧
    ∃ shape, inputs[0]?.bind (·.shape) = some shape ∧ ∃ extent ∈ shape, extent < 0

/-- What is found out from finer inputs is finer. A shape that the node leaves open is the same, and
the constant that measures an open shape is finer as the shape is. -/
structure Follows (declared measured : Prop) (coarse fine : TensorInfo) : Prop where
  /-- Nobody can fix what the node leaves open. -/
  same : declared → fine.shape = coarse.shape
  /-- Open extents are fixed otherwise. -/
  shape : ¬ declared → ShapeRefines coarse.shape fine.shape
  /-- A constant stays. -/
  value : ¬ measured → ValueKept coarse.value fine.value
  /-- The open extents of a shape that is measured are fixed in the constant. -/
  measure : measured → ShapeRefines coarse.value fine.value

/-! ### Extents and shapes -/

variable {coarse fine extent : Int} {shape finer : Shape} {info fineInfo : TensorInfo}
  {declared measured : Prop}

/-- A finer extent is fixed, if it is fixed at all or open before. -/
theorem extentRefines_iff :
    ExtentRefines coarse fine ↔ 0 ≤ fine ∧ (0 ≤ coarse → fine = coarse) := by
  unfold ExtentRefines
  split
  · rename_i hcoarse
    exact ⟨fun h => ⟨by omega, fun _ => h⟩, fun h => h.2 hcoarse⟩
  · rename_i hcoarse
    exact ⟨fun h => ⟨h, fun hfixed => absurd hfixed hcoarse⟩, fun h => h.1⟩

theorem extentRefines_self (h : 0 ≤ extent) : ExtentRefines extent extent :=
  extentRefines_iff.mpr ⟨h, fun _ => rfl⟩

/-- A shape without open extents refines itself. -/
theorem refines_self (h : ∀ extent ∈ shape, 0 ≤ extent) : List.Forall₂ ExtentRefines shape shape :=
  List.forall₂_same.mpr fun extent hextent => extentRefines_self (h extent hextent)

/-- Where nothing is open nothing changes. -/
theorem eq_of_refines (hrefines : List.Forall₂ ExtentRefines shape finer)
    (h : ∀ extent ∈ shape, 0 ≤ extent) : finer = shape := by
  induction hrefines with
  | nil => rfl
  | cons hhead _ ih =>
    rw [(extentRefines_iff.mp hhead).2 (h _ (by simp)),
      ih fun extent hextent => h extent (List.mem_cons_of_mem _ hextent)]

/-- What is found out from finer inputs, where the node leaves nothing open and measures nothing. -/
theorem Follows.of_refines (h : info.Refines fineInfo) (hdeclared : ¬ declared)
    (hmeasured : ¬ measured) : Follows declared measured info fineInfo :=
  ⟨fun hopen => absurd hopen hdeclared, fun _ => h.shape, fun _ => h.value,
    fun hopen => absurd hopen hmeasured⟩

/-- A shape that does not come with a constant. -/
theorem refines_ofShape (h : List.Forall₂ ExtentRefines shape finer) :
    (TensorInfo.ofShape shape).Refines (.ofShape finer) :=
  ⟨.some h, fun _ hvalue => by cases hvalue⟩

/-- What is said about all outputs alike follows at all of them. -/
theorem follows_replicate {node : Node} (h : Follows declared measured info fineInfo) :
    List.Forall₂ (Follows declared measured) (replicate node info) (replicate node fineInfo) := by
  unfold replicate
  induction node.outputs.length with
  | zero => exact .nil
  | succ count ih => exact .cons h ih

/-! ### Finer inputs -/

section Inputs

variable {node : Node} {opType : String} {inputs fineInputs outputs fineOutputs : List TensorInfo}
  (hinputs : List.Forall₂ TensorInfo.Refines inputs fineInputs)
include hinputs

/-- At each position the finer inputs have a finer entry. -/
theorem exists_finer {index : Nat} (hinfo : inputs[index]? = some info) :
    ∃ fineInfo, fineInputs[index]? = some fineInfo ∧ info.Refines fineInfo := by
  obtain ⟨hlength, hall⟩ := List.forall₂_iff_get.mp hinputs
  obtain ⟨hlt, rfl⟩ := List.getElem?_eq_some_iff.mp hinfo
  exact ⟨_, List.getElem?_eq_getElem (hlength ▸ hlt), hall index hlt (hlength ▸ hlt)⟩

/-- A shape that is known of an input is known of the finer one, and finer. -/
theorem exists_finer_shape {index : Nat} (hshape : inputs[index]?.bind (·.shape) = some shape) :
    ∃ finer, fineInputs[index]?.bind (·.shape) = some finer ∧
      List.Forall₂ ExtentRefines shape finer := by
  obtain ⟨info, hinfo, hshape⟩ := Option.bind_eq_some_iff.mp hshape
  obtain ⟨fineInfo, hfineInfo, hrefines⟩ := exists_finer hinputs hinfo
  have hboth := hrefines.shape
  rw [hshape] at hboth
  rw [hfineInfo, Option.bind_some]
  generalize fineInfo.shape = found at hboth
  cases hboth with
  | some h => exact ⟨_, rfl, h⟩

/-- Shapes that are known of the same input. -/
theorem refines_inputShape {index : Nat} (hshape : inputs[index]?.bind (·.shape) = some shape)
    (hfiner : fineInputs[index]?.bind (·.shape) = some finer) :
    List.Forall₂ ExtentRefines shape finer := by
  obtain ⟨found, hfound, hrefines⟩ := exists_finer_shape hinputs hshape
  rw [hfiner, Option.some.injEq] at hfound
  rw [hfound]
  exact hrefines

/-- A constant input is the same constant. -/
theorem inputValue_kept {index : Nat} : ValueKept (inputs[index]?.bind (·.value))
    (fineInputs[index]?.bind (·.value)) := by
  intro value hvalue
  obtain ⟨info, hinfo, hvalue⟩ := Option.bind_eq_some_iff.mp hvalue
  obtain ⟨fineInfo, hfineInfo, hrefines⟩ := exists_finer hinputs hinfo
  rw [hfineInfo, Option.bind_some]
  exact hrefines.value value hvalue

/-! ### Functions -/

omit hinputs in
theorem follows_parameter (hok : parameter node inputs = .ok outputs)
    (hfine : parameter node fineInputs = .ok fineOutputs) (hmeasured : ¬ measured) :
    List.Forall₂ (Follows (DeclaresOpen "Parameter" node inputs) measured) outputs fineOutputs := by
  obtain ⟨shape, hshape, rfl⟩ := parameter_eq_ok_iff.mp hok
  obtain ⟨finer, hfiner, rfl⟩ := parameter_eq_ok_iff.mp hfine
  rw [hshape, Option.some.injEq] at hfiner
  subst hfiner
  refine follows_replicate ⟨fun _ => rfl,
    fun hclosed => .some (refines_self fun extent hextent => ?_), fun _ _ hvalue => (by cases hvalue),
    fun hopen => absurd hopen hmeasured⟩
  by_contra hopen
  exact hclosed (.inl ⟨.inl rfl, shape, hshape, extent, hextent, Int.not_le.mp hopen⟩)

omit hinputs in
theorem follows_const (hok : const node inputs = .ok outputs)
    (hfine : const node fineInputs = .ok fineOutputs) (hmeasured : ¬ measured) :
    List.Forall₂ (Follows (DeclaresOpen "Const" node inputs) measured) outputs fineOutputs := by
  obtain ⟨value, hvalue, rfl⟩ := const_eq_ok_iff.mp hok
  obtain ⟨finer, hfiner, rfl⟩ := const_eq_ok_iff.mp hfine
  rw [hvalue, Option.some.injEq] at hfiner
  subst hfiner
  refine follows_replicate ⟨fun _ => rfl, fun hclosed => ?_, fun _ _ h => h,
    fun hopen => absurd hopen hmeasured⟩
  cases hshape : node.attributes.ints? "shape" with
  | none => exact .some (refines_self fun extent hextent => by simp_all)
  | some shape =>
    refine .some (refines_self fun extent hextent => ?_)
    by_contra hopen
    exact hclosed (.inl ⟨.inr rfl, shape, hshape, extent, hextent, Int.not_le.mp hopen⟩)

theorem follows_shapeOf (hok : shapeOf node inputs = .ok outputs)
    (hfine : shapeOf node fineInputs = .ok fineOutputs) (hdeclared : ¬ declared) :
    List.Forall₂ (Follows declared (MeasuresOpen "ShapeOf" inputs)) outputs fineOutputs := by
  obtain ⟨shape, hshape, rfl⟩ := shapeOf_eq_ok_iff.mp hok
  obtain ⟨finer, hfiner, rfl⟩ := shapeOf_eq_ok_iff.mp hfine
  have hrefines := refines_inputShape hinputs hshape hfiner
  refine follows_replicate ⟨fun hopen => absurd hopen hdeclared, fun _ => ?_, fun hmeasured => ?_,
    fun _ => .some hrefines⟩
  · unfold TensorInfo.ofValue
    rw [hrefines.length_eq]
    exact .some (refines_self fun extent hextent => by simp_all)
  · have hsame : finer = shape := eq_of_refines hrefines fun extent hextent => by
      by_contra hopen
      exact hmeasured ⟨rfl, shape, hshape, extent, hextent, Int.not_le.mp hopen⟩
    rw [hsame]
    exact fun _ h => h

theorem follows_elementwise (hok : elementwise node inputs = .ok outputs)
    (hfine : elementwise node fineInputs = .ok fineOutputs) (hdeclared : ¬ declared)
    (hmeasured : ¬ measured) :
    List.Forall₂ (Follows declared measured) outputs fineOutputs := by
  obtain ⟨info, hinfo, _, rfl⟩ := elementwise_eq_ok_iff.mp hok
  obtain ⟨fineInfo, hfineInfo, _, rfl⟩ := elementwise_eq_ok_iff.mp hfine
  rw [List.head?_eq_getElem?] at hinfo hfineInfo
  obtain ⟨found, hfound, hrefines⟩ := exists_finer hinputs hinfo
  rw [hfineInfo, Option.some.injEq] at hfound
  subst hfound
  exact follows_replicate (.of_refines hrefines hdeclared hmeasured)

/-- A gather picks and joins extents, and folds constants that do not change. -/
theorem follows_gatherAlong {axis : Int} (hok : gatherAlong node inputs axis = .ok outputs)
    (hfine : gatherAlong node fineInputs axis = .ok fineOutputs) (hdeclared : ¬ declared)
    (hmeasured : ¬ measured) :
    List.Forall₂ (Follows declared measured) outputs fineOutputs := by
  obtain ⟨data, indices, position, value, hdata, hindices, hposition, hvalue, rfl⟩ :=
    gatherAlong_eq_ok_iff.mp hok
  obtain ⟨fineData, fineIndices, finePosition, fineValue, hfineData, hfineIndices, hfinePosition,
    hfineValue, rfl⟩ := gatherAlong_eq_ok_iff.mp hfine
  have hrefinesData := refines_inputShape hinputs hdata hfineData
  have hrefinesIndices := refines_inputShape hinputs hindices hfineIndices
  have hrank : fineData.length = data.length := hrefinesData.length_eq.symm
  rw [hrank] at hfinePosition hfineValue
  rw [hposition, Except.ok.injEq] at hfinePosition
  subst hfinePosition
  refine follows_replicate (.of_refines ⟨.some ?_, fun folded hfolded => ?_⟩ hdeclared hmeasured)
  · exact List.rel_append
      (List.rel_append (List.forall₂_take position hrefinesData) hrefinesIndices)
      (List.forall₂_drop (position + 1) hrefinesData)
  · change value = some folded at hfolded
    subst hfolded
    -- Something is folded only if both data and indices are constant.
    have hconstant : ∃ elements positions, inputs[0]?.bind (·.value) = some elements ∧
        inputs[1]?.bind (·.value) = some positions := by
      unfold foldGather at hvalue
      split at hvalue
      · exact ⟨_, _, ‹_›, ‹_›⟩
      · cases hvalue
    obtain ⟨elements, positions, helements, hpositions⟩ := hconstant
    rw [inputValue_kept hinputs _ helements, inputValue_kept hinputs _ hpositions, ← helements,
      ← hpositions, hvalue, Except.ok.injEq] at hfineValue
    exact hfineValue.symm

theorem follows_attributedGather (hok : attributedGather node inputs = .ok outputs)
    (hfine : attributedGather node fineInputs = .ok fineOutputs) (hdeclared : ¬ declared)
    (hmeasured : ¬ measured) :
    List.Forall₂ (Follows declared measured) outputs fineOutputs := by
  obtain ⟨axis, haxis, hok⟩ := attributedGather_eq_ok_iff.mp hok
  obtain ⟨fineAxis, hfineAxis, hfine⟩ := attributedGather_eq_ok_iff.mp hfine
  rw [haxis, Option.some.injEq] at hfineAxis
  subst hfineAxis
  exact follows_gatherAlong hinputs hok hfine hdeclared hmeasured

theorem follows_gather (hok : gather node inputs = .ok outputs)
    (hfine : gather node fineInputs = .ok fineOutputs) (hdeclared : ¬ declared)
    (hmeasured : ¬ measured) :
    List.Forall₂ (Follows declared measured) outputs fineOutputs := by
  obtain ⟨axis, haxis, hok⟩ := gather_eq_ok_iff.mp hok
  obtain ⟨fineAxis, hfineAxis, hfine⟩ := gather_eq_ok_iff.mp hfine
  rw [inputValue_kept hinputs _ haxis, Option.some.injEq, List.singleton_inj] at hfineAxis
  subst hfineAxis
  exact follows_gatherAlong hinputs hok hfine hdeclared hmeasured

end Inputs

/-! ### Poolings -/

section Pooling

variable {axis fineAxis : PoolAxis} {axes fineAxes : List PoolAxis} {autoPad roundUp : Bool}
  {result fineResult : Int}

/-- Nothing but the extent differs, which is finer. -/
structure AxisRefines (axis fineAxis : PoolAxis) : Prop where
  /-- The finer extent. -/
  extent : ExtentRefines axis.extent fineAxis.extent
  /-- The window and its positions. -/
  same : fineAxis = { axis with extent := fineAxis.extent }

/-- A fixed extent gives a fixed one. -/
theorem outputExtent_nonneg (hok : axis.outputExtent autoPad roundUp = .ok result)
    (hextent : 0 ≤ axis.extent) (hstride : 0 < axis.stride) : 0 ≤ result := by
  unfold PoolAxis.outputExtent at hok
  split at hok
  · rw [if_neg (by omega), Except.ok.injEq] at hok
    rw [← hok]
    exact Int.ediv_nonneg (by omega) (by omega)
  · unfold pooledExtent at hok
    rw [if_neg (by omega)] at hok
    split at hok
    · cases hok
    · dsimp only at hok
      split at hok
      · cases hok
      · rw [Except.ok.injEq] at hok
        have hpositions : 0 ≤ (if roundUp
            then axis.extent + axis.padding - axis.window + axis.stride - 1
            else axis.extent + axis.padding - axis.window) / axis.stride :=
          Int.ediv_nonneg (by split <;> omega) (by omega)
        omega

/-- An open extent gives an open one. -/
theorem outputExtent_of_open (hok : axis.outputExtent autoPad roundUp = .ok result)
    (hopen : axis.extent < 0) : result = -1 := by
  unfold PoolAxis.outputExtent at hok
  split at hok
  · cases hok
    rfl
  · unfold pooledExtent at hok
    rw [if_pos hopen] at hok
    cases hok
    rfl

/-- An axis with a fixed extent is not changed. -/
theorem AxisRefines.eq_of_nonneg (h : AxisRefines axis fineAxis) (hextent : 0 ≤ axis.extent) :
    fineAxis = axis := by
  rw [h.same, (extentRefines_iff.mp h.extent).2 hextent]

theorem AxisRefines.outputExtent (h : AxisRefines axis fineAxis) (hstride : 0 < axis.stride)
    (hok : axis.outputExtent autoPad roundUp = .ok result)
    (hfine : fineAxis.outputExtent autoPad roundUp = .ok fineResult) :
    ExtentRefines result fineResult := by
  have hfixed := (extentRefines_iff.mp h.extent).1
  have hmoves : 0 < fineAxis.stride := by
    rw [h.same]
    exact hstride
  refine extentRefines_iff.mpr ⟨outputExtent_nonneg hfine hfixed hmoves, fun hresult => ?_⟩
  by_cases hextent : 0 ≤ axis.extent
  · rw [h.eq_of_nonneg hextent, hok, Except.ok.injEq] at hfine
    exact hfine.symm
  · have hopen := outputExtent_of_open hok (Int.not_le.mp hextent)
    omega

/-- Axis by axis. -/
theorem refines_outputExtents {extents fineExtents : List Int}
    (h : List.Forall₂ AxisRefines axes fineAxes) (hstride : ∀ axis ∈ axes, 0 < axis.stride)
    (hok : axes.mapM (·.outputExtent autoPad roundUp) = .ok extents)
    (hfine : fineAxes.mapM (·.outputExtent autoPad roundUp) = .ok fineExtents) :
    List.Forall₂ ExtentRefines extents fineExtents := by
  rw [Except.mapM_eq_ok_iff_forall₂] at hok hfine
  induction h generalizing extents fineExtents with
  | nil =>
    cases hok
    cases hfine
    exact .nil
  | cons haxis _ ih =>
    cases hok with
    | cons hhead hrest =>
      cases hfine with
      | cons hfineHead hfineRest =>
        rw [List.forall_mem_cons] at hstride
        exact .cons (haxis.outputExtent hstride.1 hhead hfineHead) (ih hstride.2 hrest hfineRest)

/-- Finer extents with the same windows, strides and paddings make finer axes. -/
theorem refines_zip {extents fineExtents : List Int}
    (h : List.Forall₂ ExtentRefines extents fineExtents) (steps : List (Int × Int × Int)) :
    List.Forall₂ AxisRefines
      ((extents.zip steps).map fun axis => ⟨axis.1, axis.2.1, axis.2.2.1, axis.2.2.2⟩)
      ((fineExtents.zip steps).map fun axis => ⟨axis.1, axis.2.1, axis.2.2.1, axis.2.2.2⟩) := by
  induction h generalizing steps with
  | nil => exact .nil
  | cons hextent _ ih =>
    cases steps with
    | nil => exact .nil
    | cons step rest =>
      exact .cons ⟨hextent, rfl⟩ (ih rest)

theorem refines_poolAxes {extents fineExtents : List Int}
    (h : List.Forall₂ ExtentRefines extents fineExtents) (window stride pads : List Int) :
    List.Forall₂ AxisRefines (poolAxes extents window stride pads)
      (poolAxes fineExtents window stride pads) :=
  refines_zip h _

/-- Where the finer axes stay in the words the others do, as an open extent needs no arithmetic. -/
theorem inWords_of_refines (h : List.Forall₂ AxisRefines axes fineAxes)
    (hfine : ∀ axis ∈ fineAxes, axis.InWords autoPad roundUp) :
    ∀ axis ∈ axes, axis.InWords autoPad roundUp := by
  induction h with
  | nil => exact fun _ haxis => (by cases haxis)
  | cons haxis _ ih =>
    rw [List.forall_mem_cons] at hfine ⊢
    refine ⟨fun hextent => ?_, ih hfine.2⟩
    have hsame := haxis.eq_of_nonneg hextent
    subst hsame
    exact hfine.1 hextent

/-- If no number leaves the words when the finer input is pooled, then none does before. -/
theorem PoolsInWords.coarser {node : Node} {inputs fineInputs : List TensorInfo}
    (h : PoolsInWords node fineInputs) (hinputs : List.Forall₂ TensorInfo.Refines inputs fineInputs) :
    PoolsInWords node inputs := by
  intro hglobal
  unfold poolingAxes
  cases hshape : inputs[0]?.bind (·.shape) with
  | none => exact fun _ haxis => (by cases haxis)
  | some input =>
    obtain ⟨fineInput, hfiner, hrefines⟩ := exists_finer_shape hinputs hshape
    have hfine := h hglobal
    rw [poolingAxes, hfiner] at hfine
    exact inWords_of_refines (refines_poolAxes (List.forall₂_drop 2 hrefines) _ _ _) hfine

theorem follows_pooling {node : Node} {inputs fineInputs outputs fineOutputs : List TensorInfo}
    (hinputs : List.Forall₂ TensorInfo.Refines inputs fineInputs)
    (hok : pooling node inputs = .ok outputs) (hfine : pooling node fineInputs = .ok fineOutputs)
    (hdeclared : ¬ declared) (hmeasured : ¬ measured) :
    List.Forall₂ (Follows declared measured) outputs fineOutputs := by
  obtain ⟨input, window, hinput, hwindow, hrank, hrest⟩ := pooling_eq_ok_iff.mp hok
  obtain ⟨fineInput, fineWindow, hfineInput, hfineWindow, _, hfineRest⟩ :=
    pooling_eq_ok_iff.mp hfine
  rw [hwindow, Option.some.injEq] at hfineWindow
  subst hfineWindow
  have hrefines := refines_inputShape hinputs hinput hfineInput
  have hleading := List.forall₂_take 2 hrefines
  rcases hrest with ⟨_, rfl⟩ | ⟨hglobal, stride, pads, extents, hstride, hpads, hstrides, hpadded,
    hdegenerate, hextents, rfl⟩
  · rcases hfineRest with ⟨_, rfl⟩ | ⟨hglobal, _⟩
    · have hones : ∀ extent ∈ List.replicate window.length (1 : Int), 0 ≤ extent :=
        fun extent hextent => by
          rw [List.eq_of_mem_replicate hextent]
          decide
      exact follows_replicate (.of_refines
        (refines_ofShape (List.rel_append hleading (refines_self hones))) hdeclared hmeasured)
    · simp_all
  · rcases hfineRest with
      ⟨hglobal, _⟩ | ⟨_, _, _, fineExtents, rfl, rfl, _, _, _, hfineExtents, rfl⟩
    · simp_all
    · rw [hstride, hpads] at hfineExtents
      have haxes := refines_poolAxes (List.forall₂_drop 2 hrefines) window stride pads
      have hmoves : ∀ axis ∈ poolAxes (input.drop 2) window stride pads, 0 < axis.stride :=
        fun _ => stride_pos_of_mem_poolAxes hrank hstrides hpadded hdegenerate
      have hpooled := refines_outputExtents haxes hmoves hextents hfineExtents
      exact follows_replicate (.of_refines (refines_ofShape (List.rel_append hleading hpooled))
        hdeclared hmeasured)

end Pooling

/-! ### Prior boxes -/

section PriorBox

variable {node : Node} {inputs fineInputs outputs fineOutputs : List TensorInfo}

/-- The number of coordinates is fixed exactly if the grid is. -/
theorem priorSize_nonneg_iff {height width size : Int} {priors : Nat}
    (hok : priorSize node height width priors = .ok size) : 0 ≤ size ↔ 0 ≤ height ∧ 0 ≤ width := by
  unfold priorSize at hok
  split at hok
  · rename_i hopen
    cases hok
    omega
  · rename_i hfixed
    rw [require_eq_ok_iff] at hok
    have hsize : size = height * width * priors * 4 := by
      simp only [Int64.productOf?, List.foldlM_cons, List.foldlM_nil, Int64.product?,
        Option.bind_eq_bind, Option.bind_eq_some_iff, Option.filter_eq_some_iff,
        Option.some.injEq] at hok
      obtain ⟨_, ⟨rfl, _⟩, _, ⟨rfl, _⟩, _, ⟨rfl, _⟩, hlast⟩ := hok
      exact (Option.some.inj hlast).symm
    have hnonneg : 0 ≤ height * width * priors := by
      have harea : 0 ≤ height * width := Int.mul_nonneg (by omega) (by omega)
      exact Int.mul_nonneg harea (by omega)
    omega

/-- On a finer grid the number of coordinates is finer. -/
theorem refines_priorSize {extents fineExtents : Int × Int} {size fineSize : Int} {priors : Nat}
    (hheight : ExtentRefines extents.1 fineExtents.1)
    (hwidth : ExtentRefines extents.2 fineExtents.2)
    (hok : priorSize node extents.1 extents.2 priors = .ok size)
    (hfine : priorSize node fineExtents.1 fineExtents.2 priors = .ok fineSize) :
    ExtentRefines size fineSize := by
  obtain ⟨hfixedHeight, hsameHeight⟩ := extentRefines_iff.mp hheight
  obtain ⟨hfixedWidth, hsameWidth⟩ := extentRefines_iff.mp hwidth
  refine extentRefines_iff.mpr
    ⟨(priorSize_nonneg_iff hfine).mpr ⟨hfixedHeight, hfixedWidth⟩, fun hsize => ?_⟩
  obtain ⟨hopenHeight, hopenWidth⟩ := (priorSize_nonneg_iff hok).mp hsize
  rw [hsameHeight hopenHeight, hsameWidth hopenWidth, hok, Except.ok.injEq] at hfine
  exact hfine.symm

theorem follows_multiBoxPrior (hinputs : List.Forall₂ TensorInfo.Refines inputs fineInputs)
    (hok : multiBoxPrior node inputs = .ok outputs)
    (hfine : multiBoxPrior node fineInputs = .ok fineOutputs) (hmeasured : ¬ measured) :
    List.Forall₂ (Follows (DeclaresOpen "MultiBoxPrior" node inputs) measured)
      outputs fineOutputs := by
  obtain ⟨priors, extents, size, hpriors, hgrid, hsize, rfl⟩ := multiBoxPrior_eq_ok_iff.mp hok
  obtain ⟨finePriors, fineExtents, fineSize, hfinePriors, hfineGrid, hfineSize, rfl⟩ :=
    multiBoxPrior_eq_ok_iff.mp hfine
  rw [hpriors, Except.ok.injEq] at hfinePriors
  subst hfinePriors
  refine follows_replicate ?_
  cases hlayout : PriorLayout.of node with
  | legacy =>
    rw [hlayout, priorGrid_legacy_eq_ok_iff] at hgrid hfineGrid
    have hsame : fineExtents = extents := by
      rw [inputValue_kept hinputs _ hgrid] at hfineGrid
      simp only [Option.some.injEq, List.cons.injEq, and_true] at hfineGrid
      exact Prod.ext hfineGrid.1.symm hfineGrid.2.symm
    rw [hsame, hsize, Except.ok.injEq] at hfineSize
    subst hfineSize
    refine ⟨fun _ => rfl, fun hclosed => .some (refines_self fun extent hextent => ?_),
      fun _ _ hvalue => (by cases hvalue), fun hopen => absurd hopen hmeasured⟩
    have hextents : ∀ extent ∈ [extents.1, extents.2], 0 ≤ extent := fun extent hextent => by
      by_contra hopen
      exact hclosed (.inr ⟨rfl, hlayout, _, hgrid, extent, hextent, Int.not_le.mp hopen⟩)
    have hfixed := (priorSize_nonneg_iff hsize).mpr ⟨hextents _ (by simp), hextents _ (by simp)⟩
    simp only [priorShape, List.mem_cons, List.not_mem_nil, or_false] at hextent
    omega
  | current =>
    have hclosed : ¬ DeclaresOpen "MultiBoxPrior" node inputs := by
      rintro (⟨htype, _⟩ | ⟨_, hlegacy, _⟩)
      · simp at htype
      · rw [hlayout] at hlegacy
        cases hlegacy
    rw [hlayout, priorGrid_current_eq_ok_iff] at hgrid hfineGrid
    obtain ⟨batch, channels, hshape⟩ := hgrid
    obtain ⟨fineBatch, fineChannels, hfiner⟩ := hfineGrid
    have hrefines := refines_inputShape hinputs hshape hfiner
    simp only [List.forall₂_cons, List.forall₂_nil_left_iff, and_true] at hrefines
    obtain ⟨_, _, hheight, hwidth⟩ := hrefines
    refine .of_refines (refines_ofShape ?_) hclosed hmeasured
    exact .cons (extentRefines_self (by decide)) (.cons (extentRefines_self (by decide))
      (.cons (refines_priorSize hheight hwidth hsize hfineSize) .nil))

end PriorBox

/-! ### The standard registry -/

/-- Whatever the function and the node, what is found out from finer inputs is finer: open extents
are fixed, and everything else is the same. Extents that the node itself has open stay open, and a
constant that measures an open shape is finer as the shape is. All numbers must stay within 64-bit
words where the finer input is pooled, and words then give the same at both calls. -/
theorem follows_of_get?_standard {opType : String} {f : InferFn} {node : Node}
    {inputs fineInputs : List TensorInfo} (hf : InferRegistry.standard.get? opType = some f)
    (hinputs : List.Forall₂ TensorInfo.Refines inputs fineInputs)
    (hwords : isPoolingType opType = true → PoolsInWords node fineInputs) :
    (∀ outputs fineOutputs, f node inputs = .ok outputs → f node fineInputs = .ok fineOutputs →
      List.Forall₂ (Follows (DeclaresOpen opType node inputs) (MeasuresOpen opType inputs)) outputs
        fineOutputs) ∧
      (isPoolingType opType = true →
        wordPooling node inputs = f node inputs ∧ wordPooling node fineInputs = f node fineInputs) := by
  have hfn := standardFn_of_get?_standard hf
  refine ⟨fun outputs fineOutputs hok hfine => ?_, fun htype => ?_⟩
  · have hclosed : opType ∉ ["Parameter", "Const", "MultiBoxPrior"] →
        ¬ DeclaresOpen opType node inputs := by
      rintro hother (⟨rfl | rfl, _⟩ | ⟨rfl, _⟩)
      · exact hother (by simp)
      · exact hother (by simp)
      · exact hother (by simp)
    have hmeasured : opType ≠ "ShapeOf" → ¬ MeasuresOpen opType inputs := fun hother h => hother h.1
    cases hfn with
    | parameter => exact follows_parameter hok hfine (hmeasured (by decide))
    | const => exact follows_const hok hfine (hmeasured (by decide))
    | shapeOf => exact follows_shapeOf hinputs hok hfine (hclosed (by decide))
    | attributedGather =>
      exact follows_attributedGather hinputs hok hfine (hclosed (by decide)) (hmeasured (by decide))
    | gather => exact follows_gather hinputs hok hfine (hclosed (by decide)) (hmeasured (by decide))
    | pooling htype =>
      have hother : ∀ other ∈ ["Pooling", "MaxPool", "AvgPool"],
          other ∉ ["Parameter", "Const", "MultiBoxPrior"] ∧ other ≠ "ShapeOf" := by decide
      obtain ⟨hneither, hne⟩ := hother opType (List.contains_iff_mem.mp htype)
      exact follows_pooling hinputs hok hfine (hclosed hneither) (hmeasured hne)
    | multiBoxPrior => exact follows_multiBoxPrior hinputs hok hfine (hmeasured (by decide))
    | result =>
      cases hok
      cases hfine
      exact .nil
    | elementwise htype =>
      have hother : ∀ other ∈ elementwiseTypes,
          other ∉ ["Parameter", "Const", "MultiBoxPrior"] ∧ other ≠ "ShapeOf" := by decide
      obtain ⟨hneither, hne⟩ := hother opType htype
      exact follows_elementwise hinputs hok hfine (hclosed hneither) (hmeasured hne)
  · have hfine := hwords htype
    rw [hfn.eq_pooling htype]
    exact ⟨wordPooling_eq (hfine.coarser hinputs), wordPooling_eq hfine⟩

/-- A node with the attributes that has one input and one output. -/
def singleNode (opType : String) (attributes : Attributes) : Node :=
  ⟨"n", opType, attributes, [⟨0, none⟩], [⟨0, [], none⟩]⟩

/-- A pooling of which the batch and one spatial axis are open. -/
theorem follows_of_get?_standard_maxPool :
    let node := singleNode "MaxPool" (.ofList [("window", .ints [2, 2]), ("stride", .ints [2, 2])])
    let coarse := TensorInfo.ofShape [-1, 3, -1, 8]
    let fine := TensorInfo.ofShape [2, 3, 6, 8]
    PoolsInWords node [fine] ∧ wordPooling node [coarse] = .ok [.ofShape [-1, 3, -1, 4]] ∧
      wordPooling node [fine] = .ok [.ofShape [2, 3, 3, 4]] ∧
        List.Forall₂
          (Follows (DeclaresOpen "MaxPool" node [coarse]) (MeasuresOpen "MaxPool" [coarse]))
          [.ofShape [-1, 3, -1, 4]] [.ofShape [2, 3, 3, 4]] := by
  intro node coarse fine
  have hok : pooling node [coarse] = .ok [.ofShape [-1, 3, -1, 4]] := by decide +kernel
  have hfine : pooling node [fine] = .ok [.ofShape [2, 3, 3, 4]] := by decide +kernel
  have hrefines : coarse.Refines fine :=
    refines_ofShape (by simp [ExtentRefines])
  have hwords : PoolsInWords node [fine] := by decide +kernel
  have hf : InferRegistry.standard.get? "MaxPool" = some pooling := rfl
  obtain ⟨hfollows, hsame⟩ := follows_of_get?_standard hf (.cons hrefines .nil) fun _ => hwords
  obtain ⟨hcoarse, hfixed⟩ := hsame rfl
  exact ⟨hwords, hcoarse.trans hok, hfixed.trans hfine, hfollows _ _ hok hfine⟩

/-- From finer inputs the function finds out something finer about the node, without any
exception. -/
def KeepsRefinement (f : InferFn) (node : Node) : Prop :=
  ∀ inputs fineInputs outputs fineOutputs, List.Forall₂ TensorInfo.Refines inputs fineInputs →
    f node inputs = .ok outputs → f node fineInputs = .ok fineOutputs →
      List.Forall₂ TensorInfo.Refines outputs fineOutputs

/-- Each exception occurs: an open shape as a constant, an open shape that is declared, and an open
constant grid. -/
theorem not_keepsRefinement :
    ¬ KeepsRefinement shapeOf (singleNode "ShapeOf" .empty) ∧
      ¬ KeepsRefinement parameter (singleNode "Parameter" (.ofList [("shape", .ints [-1])])) ∧
      ¬ KeepsRefinement const
        (singleNode "Const" (.ofList [("value", .ints [1]), ("shape", .ints [-1])])) ∧
      ¬ KeepsRefinement multiBoxPrior (singleNode "MultiBoxPrior" (.ofList
        [("V10_infer", .bool true), ("min_size", .floats [1]),
          ("aspect_ratio", .floats [1])])) := by
  have hunknown : TensorInfo.unknown.Refines .unknown := ⟨.none, fun _ hvalue => by cases hvalue⟩
  have hopen : ∀ rest, ¬ ShapeRefines (some (-1 :: rest)) (some (-1 :: rest)) := fun rest h => by
    cases h with
    | some h => simp [ExtentRefines] at h
  refine ⟨fun h => ?_, fun h => ?_, fun h => ?_, fun h => ?_⟩
  · have hout := h [.ofShape [-1, 3]] [.ofShape [2, 3]] [.ofValue [-1, 3]] [.ofValue [2, 3]]
      (.cons (refines_ofShape (by simp [ExtentRefines])) .nil) rfl rfl
    simp only [List.forall₂_cons, List.forall₂_nil_left_iff, and_true] at hout
    exact absurd (hout.value _ rfl) (by decide)
  · have hout := h [.unknown] [.unknown] [.ofShape [-1]] [.ofShape [-1]]
      (.cons hunknown .nil) rfl rfl
    simp only [List.forall₂_cons, List.forall₂_nil_left_iff, and_true] at hout
    exact hopen [] hout.shape
  · have hout := h [.unknown] [.unknown] [⟨some [-1], some [1]⟩] [⟨some [-1], some [1]⟩]
      (.cons hunknown .nil) rfl rfl
    simp only [List.forall₂_cons, List.forall₂_nil_left_iff, and_true] at hout
    exact hopen [] hout.shape
  · have hgrid : (TensorInfo.ofValue [-1, 3]).Refines (.ofValue [-1, 3]) :=
      ⟨.some (refines_self (by simp)), fun _ h => h⟩
    have hout := h [.ofValue [-1, 3]] [.ofValue [-1, 3]] [.ofShape [2, -1]] [.ofShape [2, -1]]
      (.cons hgrid .nil) rfl rfl
    simp only [List.forall₂_cons, List.forall₂_nil_left_iff, and_true] at hout
    cases hout.shape with
    | some hextents => simp [ExtentRefines] at hextents

end Infer

end OpGraph
