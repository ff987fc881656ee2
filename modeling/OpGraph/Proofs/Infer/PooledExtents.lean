import Mathlib.Order.Bounds.Defs
import OpGraph.Proofs.Infer.Function

/-!
# The extents of a pooling

What a pooling leaves of an axis is said here by the positions that its window can take, apart
from the division that finds their number. Rounding down takes as many positions as fit into the
padded input. Rounding up takes as few as reach its end. Automatic padding ignores the window and
leaves one element for each stride that has begun. Extents are unbounded integers throughout.
-/

namespace OpGraph

namespace Node

/-- Distance of the window positions on each of so many axes: one, unless the node has a list. -/
def strides (node : Node) (rank : Nat) : List Int :=
  (node.attributes.ints? "stride").getD (List.replicate rank 1)

/-- Padding before each of so many axes and then after each: none, unless the node has a list. -/
def pads (node : Node) (rank : Nat) : List Int :=
  (node.attributes.ints? "pad").getD (List.replicate (2 * rank) 0)

/-- The node leaves its padding to the size of the input. -/
def PadsAutomatically (node : Node) : Prop :=
  node.attributes.str? "auto_pad" = some "same_upper" ∨
    node.attributes.str? "auto_pad" = some "same_lower"

/-- The node counts a last window that reaches past the end. -/
def RoundsUp (node : Node) : Prop := node.attributes.str? "rounding_type" = some "ceil"

end Node

namespace Infer

variable {axis : PoolAxis} {autoPad roundUp : Bool} {extent : Int}

/-! ### One axis -/

/-- The window has its place in the padded input, where its place matters at all. -/
def PoolAxis.Fits (axis : PoolAxis) (autoPad : Prop) : Prop :=
  ¬ autoPad → 0 ≤ axis.extent → axis.window ≤ axis.extent + axis.padding

/-- What is left of the axis is so many elements. -/
structure PoolAxis.Leaves (axis : PoolAxis) (autoPad roundUp : Prop) (extent : Int) : Prop where
  /-- An unknown extent stays unknown. -/
  unknown : axis.extent < 0 → extent = -1
  /-- The strides that begin within the input. -/
  automatic : 0 ≤ axis.extent → autoPad → ∀ other : Int,
    (other - 1) * axis.stride < axis.extent ∧ axis.extent ≤ other * axis.stride ↔ other = extent
  /-- The most window positions of which the last ends within the padded input. -/
  down : 0 ≤ axis.extent → ¬ autoPad → ¬ roundUp → IsGreatest
    {other : Int | (other - 1) * axis.stride + axis.window ≤ axis.extent + axis.padding} extent
  /-- The fewest window positions, one at least, of which the last reaches its end. -/
  up : 0 ≤ axis.extent → ¬ autoPad → roundUp → IsLeast
    {other : Int | 1 ≤ other ∧ axis.extent + axis.padding ≤ (other - 1) * axis.stride + axis.window}
    extent

/-- Dividing after rounding up counts the strides that have begun. -/
theorem eq_ceilDiv_iff {span stride other : Int} (hstride : 0 < stride) :
    (other - 1) * stride < span ∧ span ≤ other * stride ↔ other = (span + stride - 1) / stride := by
  have hbelow : other ≤ (span + stride - 1) / stride ↔ (other - 1) * stride < span := by
    rw [Int.le_ediv_iff_mul_le hstride, Int.sub_mul, Int.one_mul]
    omega
  have habove : (span + stride - 1) / stride < other + 1 ↔ span ≤ other * stride := by
    rw [Int.ediv_lt_iff_lt_mul hstride, Int.add_mul, Int.one_mul]
    omega
  rw [← hbelow, ← habove]
  omega

/-- Rounding down counts the positions that fit. -/
theorem isGreatest_floorDiv {span window stride : Int} (hstride : 0 < stride) :
    IsGreatest {other : Int | (other - 1) * stride + window ≤ span} ((span - window) / stride + 1) := by
  have hfits : ∀ other : Int,
      (other - 1) * stride + window ≤ span ↔ other ≤ (span - window) / stride + 1 := by
    intro other
    have hpositions := Int.le_ediv_iff_mul_le (a := other - 1) (b := span - window) hstride
    omega
  exact ⟨(hfits _).mpr (Int.le_refl _), fun other hother => (hfits other).mp hother⟩

/-- Rounding up counts the positions that it takes to reach the end. -/
theorem isLeast_ceilDiv {span window stride : Int} (hstride : 0 < stride) (hfits : window ≤ span) :
    IsLeast {other : Int | 1 ≤ other ∧ span ≤ (other - 1) * stride + window}
      ((span - window + stride - 1) / stride + 1) := by
  have hreaches : ∀ other : Int,
      span ≤ (other - 1) * stride + window ↔ (span - window + stride - 1) / stride + 1 ≤ other := by
    intro other
    have hpositions := Int.ediv_lt_iff_lt_mul (a := span - window + stride - 1) (b := other) hstride
    have hlast : (other - 1) * stride = other * stride - stride := by rw [Int.sub_mul, Int.one_mul]
    omega
  have hsome : 0 ≤ (span - window + stride - 1) / stride :=
    Int.ediv_nonneg (by omega) (Int.le_of_lt hstride)
  exact ⟨⟨by omega, (hreaches _).mpr (Int.le_refl _)⟩, fun other hother => (hreaches other).mp hother.2⟩

/-- An axis on which the window has its place is pooled. -/
theorem PoolAxis.exists_outputExtent_iff (hwindow : 0 < axis.window) (hstride : 0 < axis.stride) :
    (∃ extent, axis.outputExtent autoPad roundUp = .ok extent) ↔ axis.Fits (autoPad = true) := by
  unfold PoolAxis.outputExtent PoolAxis.Fits
  cases autoPad with
  | true => simp
  | false =>
    unfold pooledExtent
    have hfine : ¬ (axis.window ≤ 0 ∨ axis.stride ≤ 0) := by omega
    by_cases hextent : axis.extent < 0
    · simp only [hextent, if_true, if_false, Bool.false_eq_true, not_false_eq_true]
      exact ⟨fun _ _ hknown => absurd hextent (Int.not_lt.mpr hknown), fun _ => ⟨_, rfl⟩⟩
    · by_cases hslack : axis.extent + axis.padding - axis.window < 0
      · simp only [hextent, hfine, hslack, if_true, if_false, Bool.false_eq_true, not_false_eq_true]
        constructor
        · rintro ⟨_, h⟩
          cases h
        · intro h
          have := h trivial (by omega)
          omega
      · simp only [hextent, hfine, hslack, if_false, Bool.false_eq_true, not_false_eq_true]
        exact ⟨fun _ _ _ => by omega, fun _ => ⟨_, rfl⟩⟩

/-- What comes out of an axis is what is left of it. -/
theorem PoolAxis.leaves_of_outputExtent (hstride : 0 < axis.stride)
    (h : axis.outputExtent autoPad roundUp = .ok extent) :
    axis.Leaves (autoPad = true) (roundUp = true) extent := by
  unfold PoolAxis.outputExtent at h
  cases autoPad with
  | true =>
    rw [if_pos rfl, Except.ok.injEq] at h
    refine ⟨fun hunknown => ?_, fun hknown _ other => ?_, fun _ hexplicit => (hexplicit rfl).elim,
      fun _ hexplicit => (hexplicit rfl).elim⟩
    · rw [← h, if_pos hunknown]
    · rw [← h, if_neg (by omega)]
      exact eq_ceilDiv_iff hstride
  | false =>
    rw [if_neg Bool.false_ne_true] at h
    unfold pooledExtent at h
    split at h
    · rename_i hunknown
      cases h
      exact ⟨fun _ => rfl, fun hknown => absurd hunknown (Int.not_lt.mpr hknown),
        fun hknown => absurd hunknown (Int.not_lt.mpr hknown),
        fun hknown => absurd hunknown (Int.not_lt.mpr hknown)⟩
    · split at h
      · cases h
      · dsimp only at h
        split at h
        · cases h
        · rw [Except.ok.injEq] at h
          refine ⟨fun hunknown => absurd hunknown ‹_›, fun _ hautomatic => (by cases hautomatic),
            fun _ _ hdown => ?_, fun _ _ hup => ?_⟩
          · rw [← h, if_neg hdown]
            exact isGreatest_floorDiv hstride
          · rw [← h, if_pos hup]
            exact isLeast_ceilDiv hstride (by omega)

/-- Five elements hold two windows of two elements side by side, and three reach their end. -/
example : (PoolAxis.mk 5 2 2 0).outputExtent false false = .ok 2 ∧
    (PoolAxis.mk 5 2 2 0).outputExtent false true = .ok 3 := ⟨rfl, rfl⟩

/-! ### All axes -/

variable {node : Node} {inputs outputs : List TensorInfo} {input : Shape}
  {window stride pads : List Int}

/-- The axis with that position among the spatial ones. -/
def axisAt (input : Shape) (window stride pads : List Int) (position : Nat) : PoolAxis where
  extent := input.getD (position + 2) 0
  window := window.getD position 0
  stride := stride.getD position 0
  padding := pads.getD position 0 + pads.getD (position + window.length) 0

/-- Lists of the right length describe the axes one by one. -/
theorem poolAxes_eq_map (hinput : input.length = window.length + 2)
    (hstride : stride.length = window.length) (hpads : pads.length = 2 * window.length) :
    poolAxes (input.drop 2) window stride pads =
      (List.range window.length).map (axisAt input window stride pads) := by
  unfold poolAxes
  apply List.ext_getElem
  · simp only [List.length_map, List.length_zip, List.length_zipWith, List.length_take,
      List.length_drop, List.length_range]
    omega
  · intro position hleft hright
    rw [List.length_map, List.length_range] at hright
    simp only [List.getElem_map, List.getElem_zip, List.getElem_zipWith, List.getElem_take,
      List.getElem_drop, List.getElem_range, axisAt, PoolAxis.mk.injEq]
    simp only [Nat.add_comm 2, Nat.add_comm window.length]
    exact ⟨List.getElem_eq_getD 0, List.getElem_eq_getD 0, List.getElem_eq_getD 0,
      congrArg₂ (· + ·) (List.getElem_eq_getD 0) (List.getElem_eq_getD 0)⟩

/-- No axis is degenerate where all windows and strides are positive. -/
theorem degenerateAxis?_eq_none_iff (hstride : stride.length = window.length) :
    degenerateAxis? window stride = none ↔
      ∀ position < window.length, 0 < window.getD position 0 ∧ 0 < stride.getD position 0 := by
  unfold degenerateAxis?
  rw [List.find?_eq_none]
  constructor
  · intro h position hposition
    have hmem : ((window[position], stride[position]), position) ∈ (window.zip stride).zipIdx := by
      rw [List.mem_zipIdx_iff_getElem?, List.getElem?_zip_eq_some]
      exact ⟨List.getElem?_eq_getElem hposition, List.getElem?_eq_getElem _⟩
    have hgood := h _ hmem
    simp only [Bool.or_eq_true, decide_eq_true_eq, not_or] at hgood
    rw [← List.getElem_eq_getD (h := hposition), ← List.getElem_eq_getD (h := hstride ▸ hposition)]
    omega
  · rintro h ⟨⟨extent, step⟩, position⟩ hmem
    rw [List.mem_zipIdx_iff_getElem?, List.getElem?_zip_eq_some] at hmem
    obtain ⟨hposition, _⟩ := List.getElem?_eq_some_iff.mp hmem.1
    have hpositive := h position hposition
    rw [List.getD_eq_getElem?_getD, List.getD_eq_getElem?_getD, hmem.1, hmem.2] at hpositive
    simp only [Option.getD_some] at hpositive
    simp only [Bool.or_eq_true, decide_eq_true_eq, not_or]
    omega

/-- The attribute names one of the two modes of automatic padding. -/
theorem any_auto_pad_eq_true_iff : (["same_upper", "same_lower"].any fun mode =>
    node.attributes.str? "auto_pad" = some mode) = true ↔ node.PadsAutomatically := by
  simp [Node.PadsAutomatically]

/-- A traversal succeeds exactly if each of its items does. -/
theorem exists_mapM_eq_ok_iff {ε α β : Type} {f : α → Except ε β} {items : List α} :
    (∃ results, items.mapM f = .ok results) ↔ ∀ item ∈ items, ∃ result, f item = .ok result := by
  induction items with
  | nil => exact ⟨fun _ _ hitem => (by cases hitem), fun _ => ⟨[], rfl⟩⟩
  | cons head tail ih =>
    rw [List.forall_mem_cons, ← ih]
    simp only [List.mapM_cons, Except.bind_eq_ok_iff]
    constructor
    · rintro ⟨_, first, hfirst, rest, hrest, _⟩
      exact ⟨⟨first, hfirst⟩, rest, hrest⟩
    · rintro ⟨⟨first, hfirst⟩, rest, hrest⟩
      exact ⟨_, first, hfirst, rest, hrest, rfl⟩

/-- The axis of the node with that position among the spatial ones. -/
def spatialAxis (node : Node) (input : Shape) (window : List Int) : Nat → PoolAxis :=
  axisAt input window (node.strides window.length) (node.pads window.length)

/-- What a node needs to slide a window over an input of that shape. -/
structure Slides (node : Node) (input : Shape) (window : List Int) : Prop where
  /-- There is a stride for each axis. -/
  strides : (node.strides window.length).length = window.length
  /-- There are two pads for each axis. -/
  pads : (node.pads window.length).length = 2 * window.length
  /-- The window has an extent on each axis and moves on. -/
  positive : ∀ position < window.length, 0 < (spatialAxis node input window position).window ∧
    0 < (spatialAxis node input window position).stride
  /-- The window has its place on each axis. -/
  fits : ∀ position < window.length,
    (spatialAxis node input window position).Fits node.PadsAutomatically

/-- What a node needs to pool its first input, which has that shape, by that window. -/
structure Pools (node : Node) (inputs : List TensorInfo) (input : Shape) (window : List Int) :
    Prop where
  /-- The shape of the input is known. -/
  known : inputs[0]?.bind (·.shape) = some input
  /-- The node has the window. -/
  listed : node.attributes.ints? "window" = some window
  /-- The window covers all axes but the first two. -/
  rank : input.length = window.length + 2
  /-- The window slides, unless the pooling is global. -/
  slides : node.attributes.isSet "global_pool" = false → Slides node input window

/-- What a node that pools says about each of its outputs. -/
structure Pooled (node : Node) (input : Shape) (window : List Int) (shape : Shape) : Prop where
  /-- No axis is added or lost. -/
  rank : shape.length = input.length
  /-- The first two axes stay. -/
  leading : ∀ position < 2, shape[position]? = input[position]?
  /-- A global pooling leaves one element on each spatial axis. -/
  whole : node.attributes.isSet "global_pool" = true →
    ∀ position < window.length, shape[position + 2]? = some 1
  /-- A window leaves its positions. -/
  sliding : node.attributes.isSet "global_pool" = false → ∀ position < window.length,
    ∃ extent, shape[position + 2]? = some extent ∧
      (spatialAxis node input window position).Leaves node.PadsAutomatically node.RoundsUp extent

/-- The extents that a sliding window leaves are found exactly if the window slides. -/
theorem exists_extents_iff (hrank : input.length = window.length + 2)
    (hstrides : (node.strides window.length).length = window.length)
    (hpads : (node.pads window.length).length = 2 * window.length)
    (hwindow : degenerateAxis? window (node.strides window.length) = none)
    (hautoPad : autoPad = true ↔ node.PadsAutomatically) :
    (∃ extents, (poolAxes (input.drop 2) window (node.strides window.length)
        (node.pads window.length)).mapM (·.outputExtent autoPad roundUp) = .ok extents) ↔
      Slides node input window := by
  have hpositive := (degenerateAxis?_eq_none_iff hstrides).mp hwindow
  have haxis : ∀ position < window.length,
      (∃ extent, (spatialAxis node input window position).outputExtent autoPad roundUp = .ok extent) ↔
        (spatialAxis node input window position).Fits node.PadsAutomatically := by
    intro position hposition
    have hfine := hpositive position hposition
    rw [PoolAxis.exists_outputExtent_iff hfine.1 hfine.2, propext hautoPad]
  rw [exists_mapM_eq_ok_iff, poolAxes_eq_map hrank hstrides hpads]
  simp only [List.forall_mem_map, List.mem_range]
  exact ⟨fun h => ⟨hstrides, hpads, hpositive, fun position hposition =>
    (haxis position hposition).mp (h position hposition)⟩, fun h position hposition =>
    (haxis position hposition).mpr (h.fits position hposition)⟩

/-- A pooling succeeds exactly on an input that the node pools. -/
theorem exists_pooling_eq_ok_iff :
    (∃ outputs, pooling node inputs = .ok outputs) ↔ ∃ input window, Pools node inputs input window := by
  simp only [pooling_eq_ok_iff]
  constructor
  · rintro ⟨outputs, input, window, hinput, hwindow, hrank, hrest⟩
    refine ⟨input, window, hinput, hwindow, hrank, fun hglobal => ?_⟩
    obtain ⟨hset, _⟩ | ⟨_, _, _, extents, rfl, rfl, hstrides, hpads, hdegenerate, hextents, _⟩ := hrest
    · rw [hglobal] at hset
      cases hset
    · exact (exists_extents_iff hrank hstrides hpads hdegenerate any_auto_pad_eq_true_iff).mp
        ⟨extents, hextents⟩
  · rintro ⟨input, window, h⟩
    cases hglobal : node.attributes.isSet "global_pool" with
    | true => exact ⟨_, input, window, h.known, h.listed, h.rank, .inl ⟨rfl, rfl⟩⟩
    | false =>
      have hslides := h.slides hglobal
      have hdegenerate := (degenerateAxis?_eq_none_iff hslides.strides).mpr hslides.positive
      obtain ⟨extents, hextents⟩ := (exists_extents_iff h.rank hslides.strides hslides.pads
        hdegenerate any_auto_pad_eq_true_iff).mpr hslides
      exact ⟨_, input, window, h.known, h.listed, h.rank, .inr ⟨rfl, _, _, extents, rfl, rfl,
        hslides.strides, hslides.pads, hdegenerate, hextents, rfl⟩⟩

/-- A shape that keeps the first two extents and goes on with a list. -/
theorem getElem?_leading (hrank : input.length = window.length + 2) (extents : List Int) :
    (∀ position < 2, (input.take 2 ++ extents)[position]? = input[position]?) ∧
      ∀ position, (input.take 2 ++ extents)[position + 2]? = extents[position]? := by
  have hleading : (input.take 2).length = 2 := by rw [List.length_take]; omega
  constructor
  · intro position hposition
    rw [List.getElem?_append_left (by omega), List.getElem?_take_of_lt hposition]
  · intro position
    rw [List.getElem?_append_right (by omega), hleading, Nat.add_sub_cancel]

/-- What a pooling says about its outputs. -/
theorem pooled_of_pooling (h : Pools node inputs input window)
    (hok : pooling node inputs = .ok outputs) :
    ∃ shape, outputs = replicate node (.ofShape shape) ∧ Pooled node input window shape := by
  obtain ⟨_, _, hinput, hwindow, _, hrest⟩ := pooling_eq_ok_iff.mp hok
  cases h.known.symm.trans hinput
  cases h.listed.symm.trans hwindow
  have hlength : ∀ extents : List Int, extents.length = window.length →
      (input.take 2 ++ extents).length = input.length := by
    intro extents hextents
    rw [List.length_append, List.length_take, hextents, h.rank]
    omega
  obtain ⟨hglobal, rfl⟩ | ⟨hglobal, _, _, extents, rfl, rfl, hstrides, hpads, hdegenerate, hextents,
    rfl⟩ := hrest
  · obtain ⟨hleading, hspatial⟩ := getElem?_leading h.rank (List.replicate window.length 1)
    refine ⟨_, rfl, hlength _ List.length_replicate, hleading, fun _ position hposition => ?_,
      fun hsliding => absurd (hglobal.symm.trans hsliding) (by decide)⟩
    rw [hspatial, List.getElem?_replicate_of_lt hposition]
  · have hpositive := (degenerateAxis?_eq_none_iff hstrides).mp hdegenerate
    rw [poolAxes_eq_map h.rank hstrides hpads, Except.mapM_eq_ok_iff, List.length_map,
      List.length_range] at hextents
    obtain ⟨hleading, hspatial⟩ := getElem?_leading h.rank extents
    refine ⟨_, rfl, hlength _ hextents.1, hleading,
      fun hwhole => absurd (hglobal.symm.trans hwhole) (by decide), fun _ position hposition => ?_⟩
    obtain ⟨extent, hextent, hfound⟩ := hextents.2 position (spatialAxis node input window position)
      (by rw [List.getElem?_map, List.getElem?_range hposition]; rfl)
    refine ⟨extent, (hspatial position).trans hextent, ?_⟩
    have hleaves := PoolAxis.leaves_of_outputExtent (hpositive position hposition).2 hfound
    rwa [propext any_auto_pad_eq_true_iff, propext decide_eq_true_iff] at hleaves

/-- A pooling succeeds exactly if its node pools its input, and its extents are exact. -/
theorem pooling_exact (node : Node) (inputs : List TensorInfo) :
    ((∃ outputs, pooling node inputs = .ok outputs) ↔
      ∃ input window, Pools node inputs input window) ∧
    ∀ outputs, pooling node inputs = .ok outputs → ∃ input window shape,
      Pools node inputs input window ∧ outputs = replicate node (.ofShape shape) ∧
        Pooled node input window shape := by
  refine ⟨exists_pooling_eq_ok_iff, fun outputs hok => ?_⟩
  obtain ⟨input, window, hpools⟩ := exists_pooling_eq_ok_iff.mp ⟨outputs, hok⟩
  obtain ⟨shape, houtputs, hpooled⟩ := pooled_of_pooling hpools hok
  exact ⟨input, window, shape, hpools, houtputs, hpooled⟩

end Infer
end OpGraph
