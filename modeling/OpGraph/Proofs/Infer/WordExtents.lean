import OpGraph.Proofs.Infer.PooledExtents

/-!
# Poolings in 64-bit words

The extents of a pooling are found with unbounded integers here. Signed 64-bit words wrap around
after each step instead. Both ways come to the same as long as every number on the way fits into a
word, and the same then goes for the errors. Nothing checks this, so that the extents of words are
wrong where an extent or a padding is close to the end of their range.
-/

namespace OpGraph

/-- The number that a signed 64-bit word holds after arithmetic that has this outcome. -/
def Int64.wrap (value : Int) : Int := value.bmod 18446744073709551616

/-- Arithmetic that stays in range is exact. -/
theorem Int64.wrap_of_fits {value : Int} (h : Int64.fits value = true) : Int64.wrap value = value := by
  obtain ⟨hleast, hgreatest⟩ := Bool.and_eq_true_iff.mp h
  have hleast := of_decide_eq_true hleast
  have hgreatest := of_decide_eq_true hgreatest
  unfold Int64.least at hleast
  unfold Int64.greatest at hgreatest
  exact Int.bmod_eq_of_le (by omega) (by omega)

namespace Infer

variable {axis : PoolAxis} {autoPad roundUp : Bool}

/-! ### One axis -/

/-- Output extent on one axis, with words that wrap around after each step and a division that
rounds towards zero. -/
def PoolAxis.wordExtent (axis : PoolAxis) (autoPad roundUp : Bool) : Except GraphError Int :=
  if autoPad then
    .ok (if axis.extent < 0 then -1
      else (Int64.wrap (Int64.wrap (axis.extent + axis.stride) - 1)).tdiv axis.stride)
  else if axis.extent < 0 then .ok (-1)
  else if axis.window ≤ 0 ∨ axis.stride ≤ 0 then
    .error (.shapeInferenceFailed (.degenerateWindow axis.window axis.stride))
  else
    let padded := Int64.wrap (axis.extent + Int64.wrap axis.padding)
    let slack := Int64.wrap (padded - axis.window)
    if slack < 0 then .error (.shapeInferenceFailed (.oversizedWindow axis.window padded))
    else
      let span := if roundUp then Int64.wrap (Int64.wrap (slack + axis.stride) - 1) else slack
      .ok (Int64.wrap (span.tdiv axis.stride + 1))

/-- The numbers that the arithmetic on an axis with a fixed extent passes through. -/
def PoolAxis.numbers (axis : PoolAxis) (autoPad roundUp : Bool) : List Int :=
  let slack := axis.extent + axis.padding - axis.window
  let span := if roundUp then slack + axis.stride - 1 else slack
  if autoPad then [axis.extent + axis.stride, axis.extent + axis.stride - 1]
  else
    [axis.padding, axis.extent + axis.padding, slack] ++
      if slack < 0 then []
      else (if roundUp then [slack + axis.stride, span] else []) ++ [span / axis.stride + 1]

/-- No number on the way leaves the words. There is no arithmetic on an open extent. -/
def PoolAxis.InWords (axis : PoolAxis) (autoPad roundUp : Bool) : Prop :=
  0 ≤ axis.extent → ∀ value ∈ axis.numbers autoPad roundUp, Int64.fits value = true

instance : Decidable (axis.InWords autoPad roundUp) :=
  inferInstanceAs (Decidable (0 ≤ axis.extent → ∀ value ∈ axis.numbers autoPad roundUp, _))

/-- In words the axis has the same extent. -/
theorem PoolAxis.wordExtent_eq (h : axis.InWords autoPad roundUp) (hstride : 0 < axis.stride) :
    axis.wordExtent autoPad roundUp = axis.outputExtent autoPad roundUp := by
  unfold PoolAxis.wordExtent PoolAxis.outputExtent
  by_cases hopen : axis.extent < 0
  · cases autoPad <;> simp [hopen, pooledExtent]
  · have hfits := h (Int.not_lt.mp hopen)
    unfold PoolAxis.numbers at hfits
    cases autoPad with
    | true =>
      simp only [if_true, List.forall_mem_cons] at hfits
      obtain ⟨hsum, hspan, _⟩ := hfits
      rw [if_pos rfl, if_pos rfl, if_neg hopen, if_neg hopen, Int64.wrap_of_fits hsum,
        Int64.wrap_of_fits hspan, Int.tdiv_eq_ediv_of_nonneg (by omega)]
    | false =>
      simp only [Bool.false_eq_true, if_false, List.forall_mem_append, List.forall_mem_cons] at hfits
      obtain ⟨⟨hpadding, hpadded, hslack, _⟩, hrest⟩ := hfits
      simp only [Bool.false_eq_true, if_false, pooledExtent, hopen, Int64.wrap_of_fits hpadding,
        Int64.wrap_of_fits hpadded, Int64.wrap_of_fits hslack]
      refine if_congr Iff.rfl rfl ?_
      split
      · rfl
      · rename_i hroom
        rw [if_neg hroom] at hrest
        cases roundUp with
        | true =>
          simp only [if_true, List.forall_mem_append, List.forall_mem_cons] at hrest
          obtain ⟨⟨hsum, hspan, _⟩, hlast, _⟩ := hrest
          rw [if_pos rfl, if_pos rfl, Int64.wrap_of_fits hsum, Int64.wrap_of_fits hspan,
            Int.tdiv_eq_ediv_of_nonneg (by omega), Int64.wrap_of_fits hlast]
        | false =>
          simp only [Bool.false_eq_true, if_false, List.nil_append, List.forall_mem_cons] at hrest
          rw [if_neg Bool.false_ne_true, if_neg Bool.false_ne_true,
            Int.tdiv_eq_ediv_of_nonneg (by omega), Int64.wrap_of_fits hrest.1]

/-- At the end of the range an extent comes out wrong. -/
example : (PoolAxis.mk 9223372036854775807 1 2 0).wordExtent true false = .ok (-4611686018427387904) ∧
    (PoolAxis.mk 9223372036854775807 1 2 0).outputExtent true false = .ok 4611686018427387904 :=
  ⟨by decide, by decide⟩

/-! ### All axes -/

variable {node : Node} {inputs outputs : List TensorInfo}

/-- The axes on which the node pools its first input. -/
def poolingAxes (node : Node) (inputs : List TensorInfo) : List PoolAxis :=
  let window := (node.attributes.ints? "window").getD []
  poolAxes (((inputs[0]?.bind (·.shape)).getD []).drop 2) window (node.strides window.length)
    (node.pads window.length)

/-- No number leaves the words when the node pools its first input. There is no arithmetic in a
global pooling. -/
def PoolsInWords (node : Node) (inputs : List TensorInfo) : Prop :=
  node.attributes.isSet "global_pool" = false → ∀ axis ∈ poolingAxes node inputs,
    axis.InWords
      (["same_upper", "same_lower"].any fun mode => node.attributes.str? "auto_pad" = some mode)
      (node.attributes.str? "rounding_type" = some "ceil")

instance : Decidable (PoolsInWords node inputs) :=
  inferInstanceAs (Decidable (_ → ∀ axis ∈ poolingAxes node inputs, axis.InWords _ _))

/-- Poolings with the arithmetic of words. -/
def wordPooling : InferFn := poolingWith PoolAxis.wordExtent

/-- All axes move on where none is degenerate. -/
theorem stride_pos_of_mem_poolAxes {input : Shape} {window stride pads : List Int}
    (hinput : input.length = window.length + 2) (hstride : stride.length = window.length)
    (hpads : pads.length = 2 * window.length) (hwindow : degenerateAxis? window stride = none)
    (haxis : axis ∈ poolAxes (input.drop 2) window stride pads) : 0 < axis.stride := by
  rw [poolAxes_eq_map hinput hstride hpads, List.mem_map] at haxis
  obtain ⟨position, hposition, rfl⟩ := haxis
  exact ((degenerateAxis?_eq_none_iff hstride).mp hwindow position (List.mem_range.mp hposition)).2

/-- What follows a step may make use of its success. -/
theorem bind_congr_of_ok {ε α β : Type} {x : Except ε α} {f g : α → Except ε β}
    (h : ∀ a, x = .ok a → f a = g a) : x >>= f = x >>= g := by
  cases x with
  | error error => rfl
  | ok a => exact h a rfl

/-- Functions that agree on the items agree on a traversal. -/
theorem mapM_congr_of_mem {ε α β : Type} {f g : α → Except ε β} {items : List α}
    (h : ∀ item ∈ items, f item = g item) : items.mapM f = items.mapM g := by
  induction items with
  | nil => rfl
  | cons head rest ih =>
    rw [List.mapM_cons, List.mapM_cons, h head List.mem_cons_self,
      ih fun item hitem => h item (List.mem_cons_of_mem head hitem)]

/-- In words the node is pooled with the same outcome, errors included. -/
theorem wordPooling_eq (h : PoolsInWords node inputs) :
    wordPooling node inputs = pooling node inputs := by
  unfold wordPooling pooling poolingWith
  refine bind_congr_of_ok fun input hinput => bind_congr_of_ok fun window hwindow => ?_
  refine ite_congr rfl (fun _ => rfl) fun hrank => ite_congr rfl (fun _ => rfl) fun hglobal =>
    ite_congr rfl (fun _ => rfl) fun hlists => ?_
  cases hdegenerate : degenerateAxis? window
    ((node.attributes.ints? "stride").getD (List.replicate window.length 1)) with
  | some found => rfl
  | none =>
    rw [inputShape_eq_ok_iff] at hinput
    rw [requireInts_eq_ok_iff] at hwindow
    rw [not_or, not_not, not_not] at hlists
    refine congrArg (· >>= _) (mapM_congr_of_mem fun axis haxis => ?_)
    refine PoolAxis.wordExtent_eq (h (Bool.not_eq_true _ ▸ hglobal) axis ?_)
      (stride_pos_of_mem_poolAxes (not_not.mp hrank) hlists.1 hlists.2 hdegenerate haxis)
    rw [poolingAxes, hinput, hwindow]
    exact haxis

end Infer

end OpGraph
