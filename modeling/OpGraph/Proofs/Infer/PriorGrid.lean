import OpGraph.Proofs.Infer.Function

/-!
# The number of prior boxes

A prior-box node puts out a product of the extents of its grid, its boxes at one point and the four
numbers of each box. The product is formed factor by factor and has to fit into 64 bits on the way
and in the end. The tests on the way refuse nothing that would fit in the end: no factor after the
extents is less than one, so the product never shrinks. A grid with an extent of zero has no boxes,
however large its other extent is, and one with an unknown extent has an unknown number of them.
-/

namespace OpGraph

namespace Int64

variable {start first : Int} {factors : List Int}

/-- Positive factors make a product no smaller. -/
theorem le_foldl_mul (hstart : 0 ≤ start) (hfactors : ∀ factor ∈ factors, 0 < factor) :
    start ≤ factors.foldl (· * ·) start := by
  induction factors generalizing start with
  | nil => exact Int.le_refl start
  | cons factor rest ih =>
    obtain ⟨hfactor, hrest⟩ := List.forall_mem_cons.mp hfactors
    have hproduct : start * 1 ≤ start * factor := Int.mul_le_mul_of_nonneg_left hfactor hstart
    rw [Int.mul_one] at hproduct
    exact Int.le_trans hproduct (ih (Int.le_trans hstart hproduct) hrest)

/-- A number that is not negative fits if it is no larger than the largest one. -/
theorem fits_eq_of_nonneg (hstart : 0 ≤ start) : fits start = decide (start ≤ greatest) := by
  have hleast : least ≤ start := Int.le_trans (by decide) hstart
  rw [fits, decide_eq_true hleast, Bool.true_and]

/-- Where the first product is not negative and all further factors are positive, the tests on the
way refuse nothing but what does not fit in the end. By induction on the further factors: a product
that does not fit can only grow. -/
theorem productOf?_cons_eq (hfirst : 0 ≤ start * first) (hfactors : ∀ factor ∈ factors, 0 < factor) :
    productOf? start (first :: factors) =
      (some (factors.foldl (· * ·) (start * first))).filter fits := by
  induction factors generalizing start first with
  | nil =>
    change product? start first >>= pure = _
    rw [bind_pure]
    rfl
  | cons factor rest ih =>
    obtain ⟨hfactor, hrest⟩ := List.forall_mem_cons.mp hfactors
    have hsecond : 0 ≤ start * first * factor := Int.mul_nonneg hfirst (Int.le_of_lt hfactor)
    change (product? start first >>= fun product => productOf? product (factor :: rest)) = _
    unfold product?
    rw [Option.filter_some]
    cases hfits : fits (start * first) with
    | true => exact ih hsecond hrest
    | false =>
      have hgrown := le_foldl_mul hfirst hfactors
      rw [fits_eq_of_nonneg hfirst, decide_eq_false_iff_not] at hfits
      rw [Option.filter_some, fits_eq_of_nonneg (Int.le_trans hfirst hgrown),
        decide_eq_false fun hlast => hfits (Int.le_trans hgrown hlast)]
      rfl

end Int64

namespace Infer

variable {node : Node} {inputs : List TensorInfo} {sizes ratios : List Float} {height width : Int}

/-- A node that places boxes of these sizes and ratios on a grid of these extents. -/
structure PlacesBoxes (node : Node) (inputs : List TensorInfo) (sizes ratios : List Float)
    (height width : Int) : Prop where
  /-- The least sizes of the boxes are listed. -/
  size_list : node.attributes.floats? "min_size" = some sizes
  /-- The ratios of their sides are listed. -/
  ratio_list : node.attributes.floats? "aspect_ratio" = some ratios
  /-- There is a size. -/
  some_size : sizes ≠ []
  /-- There is a ratio. -/
  some_ratio : ratios ≠ []
  /-- There are no largest sizes, or one for each least size. -/
  largest : ∀ largest, node.attributes.floats? "max_size" = some largest →
    largest = [] ∨ largest.length = sizes.length
  /-- The grid is a constant in the legacy layout and the end of a shape in the current one. -/
  grid : match PriorLayout.of node with
    | .legacy => inputs[0]?.bind (·.value) = some [height, width]
    | .current => ∃ batch channels, inputs[0]?.bind (·.shape) = some [batch, channels, height, width]

/-- Four numbers for each box at each point of the grid. -/
def boxNumbers (sizes ratios : List Float) (height width : Int) : Int :=
  height * width * (sizes.length + ratios.length - 1) * 4

namespace PlacesBoxes

variable (h : PlacesBoxes node inputs sizes ratios height width)
include h

/-- At each point there is a box for each size in the first ratio, and one of the first size in each
further ratio. -/
theorem priorCount_eq : priorCount node = .ok (sizes.length + ratios.length - 1) := by
  have hlists : (sizes.isEmpty || ratios.isEmpty) = false := by
    rw [Bool.or_eq_false_iff, List.isEmpty_eq_false_iff, List.isEmpty_eq_false_iff]
    exact ⟨h.some_size, h.some_ratio⟩
  have hlargest : ¬ ((!((node.attributes.floats? "max_size").getD []).isEmpty &&
      decide (((node.attributes.floats? "max_size").getD []).length ≠ sizes.length)) = true) := by
    rw [Bool.and_eq_true, Bool.not_eq_true', List.isEmpty_eq_false_iff, decide_eq_true_iff]
    rintro ⟨hsome, hdiffer⟩
    cases hfound : node.attributes.floats? "max_size" with
    | none => exact hsome (by rw [hfound]; rfl)
    | some largest =>
      rw [hfound] at hsome hdiffer
      rcases h.largest largest hfound with hnil | hlength
      · exact hsome hnil
      · exact hdiffer hlength
  refine Except.bind_eq_ok_iff.mpr ⟨sizes, require_eq_ok_iff.mpr h.size_list,
    Except.bind_eq_ok_iff.mpr ⟨ratios, require_eq_ok_iff.mpr h.ratio_list, ?_⟩⟩
  rw [hlists]
  dsimp only
  rw [if_neg Bool.false_ne_true, if_neg hlargest]
  rfl

/-- The grid is found in either layout. -/
theorem priorGrid_eq : priorGrid node inputs (PriorLayout.of node) = .ok (height, width) := by
  have hgrid := h.grid
  cases hlayout : PriorLayout.of node with
  | legacy =>
    rw [hlayout] at hgrid
    exact priorGrid_legacy_eq_ok_iff.mpr hgrid
  | current =>
    rw [hlayout] at hgrid
    exact priorGrid_current_eq_ok_iff.mpr hgrid

/-- On a known grid the numbers are counted exactly or do not fit. -/
theorem priorSize_eq (hheight : 0 ≤ height) (hwidth : 0 ≤ width) :
    priorSize node height width (sizes.length + ratios.length - 1) =
      if boxNumbers sizes ratios height width ≤ Int64.greatest then
        .ok (boxNumbers sizes ratios height width)
      else .error (fault node (.priorOverflow height width (sizes.length + ratios.length - 1))) := by
  have hsizes := List.length_pos_iff.mpr h.some_size
  have hratios := List.length_pos_iff.mpr h.some_ratio
  have hcount : ((sizes.length + ratios.length - 1 : Nat) : Int) =
      sizes.length + ratios.length - 1 := by omega
  have hpoints : 0 ≤ height * width := Int.mul_nonneg hheight hwidth
  have hfactors : ∀ factor ∈ [(sizes.length + ratios.length - 1 : Int), 4], 0 < factor := by
    simp only [List.mem_cons, List.not_mem_nil, or_false, forall_eq_or_imp, forall_eq]
    omega
  have hnumbers : 0 ≤ boxNumbers sizes ratios height width :=
    Int.le_trans hpoints (Int64.le_foldl_mul hpoints hfactors)
  have hproduct : Int64.productOf? height [width, (sizes.length + ratios.length - 1 : Nat), 4] =
      (some (boxNumbers sizes ratios height width)).filter Int64.fits := by
    rw [hcount]
    exact Int64.productOf?_cons_eq hpoints hfactors
  unfold priorSize
  rw [if_neg (by omega), hproduct, Option.filter_some, Int64.fits_eq_of_nonneg hnumbers]
  simp only [decide_eq_true_eq]
  split <;> rfl

end PlacesBoxes

/-- Prior boxes are counted exactly or refused. A grid with an unknown extent leaves their number
unknown. On any other grid inference says of every output how many numbers there are, in the layout
of the node, if that fits into 64 bits, and it fails if it does not. -/
theorem multiBoxPrior_exact (h : PlacesBoxes node inputs sizes ratios height width) :
    multiBoxPrior node inputs =
      if height < 0 ∨ width < 0 then
        .ok (replicate node (.ofShape (priorShape (PriorLayout.of node) (-1))))
      else if boxNumbers sizes ratios height width ≤ Int64.greatest then
        .ok (replicate node (.ofShape (priorShape (PriorLayout.of node)
          (boxNumbers sizes ratios height width))))
      else .error (fault node (.priorOverflow height width (sizes.length + ratios.length - 1))) := by
  have hsize : multiBoxPrior node inputs =
      (priorSize node height width (sizes.length + ratios.length - 1)).map fun size =>
        replicate node (.ofShape (priorShape (PriorLayout.of node) size)) := by
    unfold multiBoxPrior
    rw [h.priorCount_eq]
    change (priorGrid node inputs (PriorLayout.of node) >>= _) = _
    rw [h.priorGrid_eq]
    change (priorSize node height width (sizes.length + ratios.length - 1) >>= _) = _
    cases priorSize node height width (sizes.length + ratios.length - 1) with
    | error error => rfl
    | ok size => cases PriorLayout.of node <;> rfl
  rw [hsize]
  by_cases hunknown : height < 0 ∨ width < 0
  · rw [if_pos hunknown, priorSize, if_pos hunknown]
    rfl
  · rw [if_neg hunknown, h.priorSize_eq (by omega) (by omega)]
    split <;> rfl

/-- A node with three sizes and two ratios, so four boxes at each point, in either layout. -/
def fourBoxes (legacy : Bool) : Node where
  name := "boxes"
  opType := "MultiBoxPrior"
  attributes := .ofList [("min_size", .floats [0.1, 0.2, 0.3]), ("aspect_ratio", .floats [1.0, 2.0]),
    ("max_size", .floats []), ("V10_infer", .bool legacy)]
  inputs := [⟨0, none⟩]
  outputs := [⟨0, [], none⟩]

/-- The boxes on the largest grid of one column are counted, and one more row is refused. -/
theorem multiBoxPrior_exact_fullColumn :
    multiBoxPrior (fourBoxes true) [.ofValue [576460752303423487, 1]] =
        .ok [.ofShape [2, 9223372036854775792]] ∧
      multiBoxPrior (fourBoxes false) [.ofShape [1, 8, 576460752303423488, 1]] =
        .error (fault (fourBoxes false) (.priorOverflow 576460752303423488 1 4)) := by
  have hlarge : PlacesBoxes (fourBoxes true) [.ofValue [576460752303423487, 1]] [0.1, 0.2, 0.3]
      [1.0, 2.0] 576460752303423487 1 :=
    ⟨rfl, rfl, by simp, by simp, fun _ h => by cases h; exact .inl rfl, rfl⟩
  have htooLarge : PlacesBoxes (fourBoxes false) [.ofShape [1, 8, 576460752303423488, 1]]
      [0.1, 0.2, 0.3] [1.0, 2.0] 576460752303423488 1 :=
    ⟨rfl, rfl, by simp, by simp, fun _ h => by cases h; exact .inl rfl, 1, 8, rfl⟩
  exact ⟨multiBoxPrior_exact hlarge, multiBoxPrior_exact htooLarge⟩

end Infer

end OpGraph
