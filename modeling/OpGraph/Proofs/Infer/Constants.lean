import Mathlib.Logic.Relation
import OpGraph.Proofs.Infer.Visited
import OpGraph.Proofs.Reachable

/-!
# Constants that inference finds

An evaluator says what the tensors of a graph are, as far as they do not depend on the data of graph
inputs. What inference says of the outputs of a graph in which nothing was said before is just what
the evaluator says, if activations pass their inputs on. If they cut off what is negative
this holds wherever no constant with a negative element gets to an activation.
-/

namespace OpGraph

/-! ### Evaluation -/

/-- A tensor of which at least the extents are known. -/
structure Tensor where
  /-- Extents by axis. -/
  extents : Shape
  /-- Elements, if they do not depend on the data of graph inputs. -/
  elements : Option (List Int)
  deriving DecidableEq

namespace Tensor

/-- All that can be said of the tensor. -/
def info (tensor : Tensor) : TensorInfo := ⟨some tensor.extents, tensor.elements⟩

theorem info_injective {tensor other : Tensor} (h : tensor.info = other.info) : tensor = other := by
  cases tensor
  cases other
  simpa [info] using h

/-- A list as a tensor with one axis. -/
def ofList (elements : List Int) : Tensor := ⟨[(elements.length : Int)], some elements⟩

/-- The element at an index, or counted from the end if the index is negative. -/
def elementAt (elements : List Int) (index : Int) : Option Int :=
  if 0 ≤ index then elements[index.toNat]? else elements.reverse[(-index - 1).toNat]?

/-- The axis with a number, or counted from the last if the number is negative. -/
def axisAt (axis : Int) (rank : Nat) : Option Nat :=
  if 0 ≤ axis ∧ axis < rank then some axis.toNat
  else if axis < 0 ∧ 0 ≤ axis + rank then some (axis + rank).toNat
  else none

/-- The extents of the indices stand in the place of one axis of the data. From data with
one axis the elements at the indices are taken. -/
def gather (data indices : Tensor) (axis : Int) : Option Tensor := do
  let position ← axisAt axis data.extents.length
  let extents := data.extents.take position ++ indices.extents ++ data.extents.drop (position + 1)
  match data.extents, data.elements, indices.elements with
  | [_], some elements, some positions =>
    return ⟨extents, some (← positions.mapM (elementAt elements))⟩
  | _, _, _ => return ⟨extents, none⟩

end Tensor

/-- Operators that the evaluator knows, and graph outputs, which deliver nothing. -/
def evaluatedTypes : List String :=
  ["Parameter", "Const", "ShapeOf", "Identity", "FakeOutput", "Relu", "AttributedGather", "Gather",
    "Result"]

/-- What the operator of the node makes of its inputs. An activation changes each element. -/
def Node.apply (activate : Int → Int) (node : Node) (input : Nat → Option Tensor) : Option Tensor :=
  match node.opType with
  | "Parameter" => (node.attributes.ints? "shape").map (⟨·, none⟩)
  | "Const" => (node.attributes.ints? "value").map fun value =>
    ⟨(node.attributes.ints? "shape").getD [(value.length : Int)], some value⟩
  | "ShapeOf" => (input 0).map fun tensor => .ofList tensor.extents
  | "Identity" | "FakeOutput" => input 0
  | "Relu" => (input 0).map fun tensor => ⟨tensor.extents, tensor.elements.map (·.map activate)⟩
  | "AttributedGather" => do (← input 0).gather (← input 1) (← node.attributes.int? "axis")
  | "Gather" => do
    match (← input 2).elements with
    | some [axis] => (← input 0).gather (← input 1) axis
    | _ => none
  | _ => none

namespace Graph

/-- The tensor that the node delivers, if it lies at most so deep below graph inputs and
constants. -/
def evaluateBelow (activate : Int → Int) (graph : Graph) : Nat → NodeId → Option Tensor
  | 0, _ => none
  | depth + 1, id => do
    (← graph.node? id).apply activate fun index => do
      graph.evaluateBelow activate depth (← graph.inputSource? id index).node

/-- The tensor that the node delivers. No path is longer than there are nodes. -/
def evaluate (activate : Int → Int) (graph : Graph) (id : NodeId) : Option Tensor :=
  graph.evaluateBelow activate graph.nodes.size id

end Graph

/-! ### One operator -/

namespace Infer

variable {node : Node} {inputs outputs : List TensorInfo} {info : TensorInfo}
  {input : Nat → Option Tensor} {activate : Int → Int} {index : Nat}

/-- What is known of each input is what can be said of the tensor there. -/
def Delivers (input : Nat → Option Tensor) (inputs : List TensorInfo) : Prop :=
  ∀ index info, inputs[index]? = some info → info.isResolved = true →
    ∃ tensor, input index = some tensor ∧ info = tensor.info

theorem Delivers.of_shape (h : Delivers input inputs) {shape : Shape}
    (hshape : inputs[index]?.bind (·.shape) = some shape) :
    ∃ tensor, input index = some tensor ∧ inputs[index]? = some tensor.info ∧
      tensor.extents = shape := by
  obtain ⟨info, hinfo, hshape⟩ := Option.bind_eq_some_iff.mp hshape
  obtain ⟨tensor, htensor, rfl⟩ := h index info hinfo (by simp [TensorInfo.isResolved, hshape])
  exact ⟨tensor, htensor, hinfo, Option.some.inj hshape⟩

theorem Delivers.of_value (h : Delivers input inputs) {value : List Int}
    (hvalue : inputs[index]?.bind (·.value) = some value) :
    ∃ tensor, input index = some tensor ∧ tensor.elements = some value := by
  obtain ⟨info, hinfo, hvalue⟩ := Option.bind_eq_some_iff.mp hvalue
  obtain ⟨tensor, htensor, rfl⟩ := h index info hinfo (by simp [TensorInfo.isResolved, hvalue])
  exact ⟨tensor, htensor, hvalue⟩

/-- An index picks the same element, from the front or from the end. -/
theorem elementAt_of_pick {elements : List Int} {position element : Int}
    (hok : pick node elements position = .ok element) :
    Tensor.elementAt elements position = some element := by
  unfold pick at hok
  rw [require_eq_ok_iff] at hok
  unfold Tensor.elementAt
  by_cases hnegative : position < 0
  · rw [if_pos hnegative] at hok
    split at hok
    · cases hok
    · rename_i hinside
      have hlt := (List.getElem?_eq_some_iff.mp hok).1
      have hback : (-position - 1).toNat < elements.length := by omega
      have hplace : elements.length - 1 - (-position - 1).toNat =
          (position + elements.length).toNat := by omega
      rw [if_neg (by omega), List.getElem?_reverse hback, hplace, hok]
  · rw [if_neg hnegative, if_neg hnegative] at hok
    rw [if_pos (by omega), hok]

theorem elementsAt_of_pick {elements positions picked : List Int}
    (hok : positions.mapM (pick node elements) = .ok picked) :
    positions.mapM (Tensor.elementAt elements) = some picked := by
  induction positions generalizing picked with
  | nil =>
    cases hok
    rfl
  | cons position rest ih =>
    rw [List.mapM_cons] at hok ⊢
    obtain ⟨element, helement, hok⟩ := Except.bind_eq_ok_iff.mp hok
    obtain ⟨others, hothers, hok⟩ := Except.bind_eq_ok_iff.mp hok
    cases hok
    rw [elementAt_of_pick helement, ih hothers]
    rfl

/-- The axis is the same. -/
theorem axisAt_of_normalizeAxis {axis : Int} {rank position : Nat}
    (hok : normalizeAxis axis rank = .ok position) : Tensor.axisAt axis rank = some position := by
  unfold normalizeAxis at hok
  dsimp only at hok
  unfold Tensor.axisAt
  by_cases hnegative : axis < 0
  · rw [if_pos hnegative] at hok
    split at hok
    · cases hok
    · cases hok
      rw [if_neg (by omega), if_pos (by omega)]
  · rw [if_neg hnegative] at hok
    split at hok
    · cases hok
    · cases hok
      rw [if_pos (by omega)]

/-- What is folded are the elements that the evaluator gathers. -/
theorem gather_of_fold {data indices : Tensor} {axis : Int} {position : Nat}
    {value : Option (List Int)}
    (hposition : normalizeAxis axis data.extents.length = .ok position)
    (hvalue : foldGather node data.extents.length data.elements indices.elements = .ok value) :
    data.gather indices axis = some
      ⟨data.extents.take position ++ indices.extents ++ data.extents.drop (position + 1), value⟩ := by
  unfold Tensor.gather
  rw [axisAt_of_normalizeAxis hposition, Option.bind_eq_bind, Option.bind_some]
  unfold foldGather at hvalue
  split at hvalue
  · rename_i elements positions helements hpositions
    split at hvalue
    · rename_i hrank
      obtain ⟨picked, hpicked, hvalue⟩ := Except.bind_eq_ok_iff.mp hvalue
      cases hvalue
      obtain ⟨extent, hextent⟩ := List.length_eq_one_iff.mp hrank
      rw [helements, hpositions, hextent]
      dsimp only
      rw [elementsAt_of_pick hpicked]
      rfl
    · rename_i hrank
      cases hvalue
      split
      · rename_i hextent _ _
        rw [hextent] at hrank
        exact absurd rfl hrank
      · rfl
  · rename_i hunknown
    cases hvalue
    split
    · rename_i helements hpositions
      exact absurd hpositions (hunknown _ _ helements)
    · rfl

theorem gather_of_ok {axis : Int} (h : Delivers input inputs)
    (hok : gatherAlong node inputs axis = .ok outputs) (hinfo : info ∈ outputs) :
    ∃ data indices tensor, input 0 = some data ∧ input 1 = some indices ∧
      data.gather indices axis = some tensor ∧ info = tensor.info := by
  obtain
    ⟨dataShape, indexShape, position, value, hdataShape, hindexShape, hposition, hvalue, rfl⟩ :=
    gatherAlong_eq_ok_iff.mp hok
  obtain ⟨data, hdata, hdataInfo, rfl⟩ := h.of_shape hdataShape
  obtain ⟨indices, hindices, hindicesInfo, rfl⟩ := h.of_shape hindexShape
  rw [hdataInfo, hindicesInfo, Option.bind_some, Option.bind_some] at hvalue
  exact ⟨data, indices, ⟨_, value⟩, hdata, hindices, gather_of_fold hposition hvalue,
    List.eq_of_mem_replicate hinfo⟩

/-- Whatever an inference function says of an output is what the operator of the node delivers. -/
theorem apply_of_ok {f : InferFn} (hf : InferRegistry.standard.get? node.opType = some f)
    (htype : node.opType ∈ evaluatedTypes) (h : Delivers input inputs)
    (hok : f node inputs = .ok outputs) (hinfo : info ∈ outputs)
    (hfixed : node.opType = "Relu" →
      ∀ value, info.value = some value → value.map activate = value) :
    ∃ tensor, node.apply activate input = some tensor ∧ info = tensor.info := by
  have hcopy : elementwise node inputs = .ok outputs →
      ∃ tensor, input 0 = some tensor ∧ info = tensor.info := fun hok => by
    obtain ⟨found, hfound, hresolved, rfl⟩ := elementwise_eq_ok_iff.mp hok
    rw [List.head?_eq_getElem?] at hfound
    rw [List.eq_of_mem_replicate hinfo]
    exact h 0 found hfound hresolved
  unfold Node.apply
  simp only [evaluatedTypes, List.mem_cons, List.not_mem_nil, or_false] at htype
  rcases htype with htype | htype | htype | htype | htype | htype | htype | htype | htype
  all_goals rw [htype] at hf ⊢
  · obtain rfl : parameter = f := Option.some.inj hf
    obtain ⟨shape, hshape, rfl⟩ := parameter_eq_ok_iff.mp hok
    exact ⟨⟨shape, none⟩, by simp [hshape], List.eq_of_mem_replicate hinfo⟩
  · obtain rfl : const = f := Option.some.inj hf
    obtain ⟨value, hvalue, rfl⟩ := const_eq_ok_iff.mp hok
    refine ⟨⟨(node.attributes.ints? "shape").getD [(value.length : Int)], some value⟩,
      by simp [hvalue],
      (List.eq_of_mem_replicate hinfo).trans ?_⟩
    cases node.attributes.ints? "shape" <;> rfl
  · obtain rfl : shapeOf = f := Option.some.inj hf
    obtain ⟨shape, hshape, rfl⟩ := shapeOf_eq_ok_iff.mp hok
    obtain ⟨tensor, htensor, _, rfl⟩ := h.of_shape hshape
    exact ⟨.ofList tensor.extents, by simp [htensor], List.eq_of_mem_replicate hinfo⟩
  · obtain rfl : elementwise = f := Option.some.inj hf
    exact hcopy hok
  · obtain rfl : elementwise = f := Option.some.inj hf
    exact hcopy hok
  · obtain rfl : elementwise = f := Option.some.inj hf
    obtain ⟨tensor, htensor, rfl⟩ := hcopy hok
    have hkept : tensor.elements.map (·.map activate) = tensor.elements := by
      cases helements : tensor.elements with
      | none => rfl
      | some value => rw [Option.map_some, hfixed htype value helements]
    exact ⟨tensor, by simp [htensor, hkept], rfl⟩
  · obtain rfl : attributedGather = f := Option.some.inj hf
    obtain ⟨axis, haxis, hok⟩ := attributedGather_eq_ok_iff.mp hok
    obtain ⟨data, indices, tensor, hdata, hindices, htensor, rfl⟩ := gather_of_ok h hok hinfo
    exact ⟨tensor, by simp [hdata, hindices, haxis, htensor], rfl⟩
  · obtain rfl : gather = f := Option.some.inj hf
    obtain ⟨axis, haxis, hok⟩ := gather_eq_ok_iff.mp hok
    obtain ⟨number, hnumber, hnumberElements⟩ := h.of_value haxis
    obtain ⟨data, indices, tensor, hdata, hindices, htensor, rfl⟩ := gather_of_ok h hok hinfo
    exact ⟨tensor, by simp [hdata, hindices, hnumber, hnumberElements, htensor], rfl⟩
  · obtain rfl : result = f := Option.some.inj hf
    cases hok
    cases hinfo

end Infer

/-! ### Whole graphs -/

namespace Graph

variable {graph start final : Graph} {order : List NodeId} {activate : Int → Int} {id : NodeId}

/-- Activation changes none of the constants that inference finds at the node, if it is an
activation. -/
def UnchangedAt (activate : Int → Int) (start final : Graph) (id : NodeId) : Prop :=
  ∀ node, start.node? id = some node → node.opType = "Relu" → ∀ port info value, port.node = id →
    final.outputInfo? port = some info → info.value = some value → value.map activate = value

/-- Something is known only of connected inputs, namely what is said of the outputs that they read. -/
theorem Visited.delivers {registry : InferRegistry} (h : Visited registry start order final)
    {count : Nat} {inputs : List TensorInfo} {input : Nat → Option Tensor}
    (hreceives : final.Receives id count inputs)
    (hread : ∀ index source info, start.inputSource? id index = some source →
      final.outputInfo? source = some info →
        ∃ tensor, input index = some tensor ∧ info = tensor.info) :
    Infer.Delivers input inputs := by
  intro index info hinfo hresolved
  have hindex := (List.getElem?_eq_some_iff.mp hinfo).1
  have hknown := hreceives.2 index (hreceives.1 ▸ hindex)
  rw [hinfo] at hknown
  unfold known? at hknown
  rw [h.inputSource?] at hknown
  cases hsource : start.inputSource? id index with
  | none =>
    rw [hsource, Option.some.injEq] at hknown
    rw [← hknown] at hresolved
    cases hresolved
  | some source =>
    rw [hsource] at hknown
    exact hread index source info hsource (Option.filter_eq_some_iff.mp hknown).1

/-- By induction on the depth, nodes read those that stand before them in the order. -/
theorem Visited.evaluateBelow (h : Visited .standard start order final)
    (horder : start.IsOrder order)
    (hblank : ∀ id node, start.node? id = some node → node.IsBlank)
    (htypes : ∀ id node, start.node? id = some node → node.opType ∈ evaluatedTypes) (depth : Nat)
    {port : PortRef} {info : TensorInfo} (hdepth : order.idxOf port.node < depth)
    (hinfo : final.outputInfo? port = some info)
    (hunchanged : ∀ other, Relation.ReflTransGen start.Reads port.node other →
      UnchangedAt activate start final other) :
    ∃ tensor, start.evaluateBelow activate depth port.node = some tensor ∧ info = tensor.info := by
  induction depth generalizing port info with
  | zero => exact absurd hdepth (Nat.not_lt_zero _)
  | succ depth ih =>
    obtain ⟨node, output, hn, houtput, hsaid⟩ := exists_output_of_outputInfo? hinfo
    rcases h.node_final horder hn with ⟨hclosed, hbefore⟩ |
      ⟨before, inputs, outputs, hbefore, _, hreceives, hcomputed, rfl⟩
    · rw [pending_eq hbefore, (hblank _ _ hbefore).isAnnotated] at hclosed
      cases hclosed
    obtain ⟨own, hmem, hown⟩ := Node.exists_info_of_mem_inform hcomputed.length_eq houtput
    rw [hsaid, Option.some.injEq] at hown
    subst hown
    have hdelivers : Infer.Delivers (fun index => do
        start.evaluateBelow activate depth (← start.inputSource? port.node index).node) inputs := by
      refine h.delivers hreceives fun index source found hsource hfound => ?_
      have hreads : start.Reads port.node source.node := ⟨index, source, hsource, rfl⟩
      have hbelow := horder.1.idxOf_lt ((horder.2 port.node).mpr hreads.isSome) hreads
      rw [List.nil_append] at hbelow
      have hsourceTensor := ih (by omega) hfound fun other hother =>
        hunchanged other (.head hreads hother)
      simpa [hsource] using hsourceTensor
    obtain ⟨f, hf, hok, _⟩ := hcomputed
    obtain ⟨tensor, htensor, hsame⟩ := Infer.apply_of_ok hf (htypes _ _ hbefore) hdelivers hok hmem
      fun htype value hvalue => hunchanged port.node .refl before hbefore htype port info value rfl
        hinfo hvalue
    refine ⟨tensor, ?_, hsame⟩
    rw [Graph.evaluateBelow, hbefore]
    exact htensor

theorem Visited.evaluate (h : Visited .standard start order final) (horder : start.IsOrder order)
    (hblank : ∀ id node, start.node? id = some node → node.IsBlank)
    (htypes : ∀ id node, start.node? id = some node → node.opType ∈ evaluatedTypes)
    {port : PortRef} {info : TensorInfo} (hinfo : final.outputInfo? port = some info)
    (hunchanged : ∀ other, Relation.ReflTransGen start.Reads port.node other →
      UnchangedAt activate start final other) :
    ∃ tensor, start.evaluate activate port.node = some tensor ∧ info = tensor.info := by
  refine h.evaluateBelow horder hblank htypes start.nodes.size ?_ hinfo hunchanged
  obtain ⟨node, _, hn, _, _⟩ := exists_output_of_outputInfo? hinfo
  have hmem : port.node ∈ order := by
    rw [horder.2, h.node?_start, hn]
    rfl
  have hlength : order.length = start.nodes.size := by
    rw [horder.perm.length_eq, OrderedMap.keys, List.length_map]
    rfl
  rw [← hlength]
  exact List.idxOf_lt_length_iff.mpr hmem

end Graph

/-- What inference says of an output of a graph in which nothing was said before is what the
evaluator says of it, where activations pass their inputs on. The same holds where they cut off
what is negative, if no constant that inference finds at an activation on the way to the output
has a negative element. -/
theorem Infer.constants_of_run_inferGraph {start final : Graph} {stats : InferStats}
    (hreachable : start.Reachable)
    (hblank : ∀ id node, start.node? id = some node → node.IsBlank)
    (htypes : ∀ id node, start.node? id = some node → node.opType ∈ evaluatedTypes)
    (hrun : (inferGraph .standard).run start = .ok stats final) :
    ∀ port info, final.outputInfo? port = some info →
      (∃ tensor, start.evaluate id port.node = some tensor ∧ info = tensor.info) ∧
      ((∀ other node, Relation.ReflTransGen start.Reads port.node other →
          start.node? other = some node → node.opType = "Relu" →
            ∀ source found value, source.node = other → final.outputInfo? source = some found →
              found.value = some value → ∀ element ∈ value, 0 ≤ element) →
        ∃ tensor, start.evaluate (max 0) port.node = some tensor ∧ info = tensor.info) := by
  obtain ⟨order, horder, hvisited, _⟩ := visited_of_run_inferGraph hreachable.coherent hrun
  intro port info hinfo
  refine ⟨hvisited.evaluate horder hblank htypes hinfo
      fun _ _ _ _ _ _ _ value _ _ _ => value.map_id,
    fun hnonneg => hvisited.evaluate horder hblank htypes hinfo ?_⟩
  intro other hother node hn htype source found value hsource hfound hvalue
  refine (List.map_congr_left fun element helement => ?_).trans value.map_id
  exact max_eq_right
    (hnonneg other node hother hn htype source found value hsource hfound hvalue element helement)

/-- Two extents of a graph input are taken from its shape and pass an activation. -/
def Infer.takenExtents : Graph :=
  [Operation.addNode
      { opType := "Parameter", attributes := .ofList [("shape", .ints [1, 3, 19, 17])],
        outputs := 1 },
    .addNode { opType := "ShapeOf", inputs := 1, outputs := 1 },
    .addNode { opType := "Const", attributes := .ofList [("value", .ints [3, 2])], outputs := 1 },
    .addNode { opType := "AttributedGather", attributes := .ofList [("axis", .int 0)],
               inputs := 2, outputs := 1 },
    .addNode { opType := "Relu", inputs := 1, outputs := 1 },
    .connect (.output ⟨0⟩ 0) (.input ⟨1⟩ 0),
    .connect (.output ⟨1⟩ 0) (.input ⟨3⟩ 0),
    .connect (.output ⟨2⟩ 0) (.input ⟨3⟩ 1),
    .connect (.output ⟨3⟩ 0) (.input ⟨4⟩ 0)].foldl (fun graph operation =>
      operation.perform.after graph) .empty

/-- Inference finds the two extents, and so does either evaluator. -/
theorem Infer.constants_of_run_inferGraph_takenExtents :
    ∃ stats final, (inferGraph .standard).run takenExtents = .ok stats final ∧
      final.outputInfo? (.output ⟨4⟩ 0) = some (.ofValue [17, 19]) ∧
        takenExtents.evaluate id ⟨4⟩ = some (.ofList [17, 19]) ∧
          takenExtents.evaluate (max 0) ⟨4⟩ = some (.ofList [17, 19]) := by
  have hnodes : ∀ entry ∈ takenExtents.nodes.toList, (∀ port ∈ entry.2.outputs, port.info = none) ∧
      entry.2.opType ∈ evaluatedTypes := by decide +kernel
  have hentry : ∀ id node, takenExtents.node? id = some node →
      (id, node) ∈ takenExtents.nodes.toList :=
    fun id node => (takenExtents.nodes.get?_eq_some_iff id node).mp
  have hok : (match (inferGraph .standard).run takenExtents with
      | .ok _ final => decide (final.outputInfo? (.output ⟨4⟩ 0) = some (.ofValue [17, 19]) ∧
          ∀ node ∈ final.nodes.values, ∀ port ∈ node.outputs, ∀ info ∈ port.info,
            ∀ value ∈ info.value, ∀ element ∈ value, 0 ≤ element)
      | .error _ _ => false) = true := by decide +kernel
  cases hrun : (inferGraph .standard).run takenExtents with
  | error error left =>
    rw [hrun] at hok
    cases hok
  | ok stats final =>
    rw [hrun] at hok
    obtain ⟨hinfo, hnonneg⟩ := of_decide_eq_true hok
    obtain ⟨⟨tensor, htensor, hsame⟩, hactivated⟩ :=
      constants_of_run_inferGraph (Graph.reachable_of_operations _)
        (fun id node hn => (hnodes _ (hentry id node hn)).1)
        (fun id node hn => (hnodes _ (hentry id node hn)).2) hrun _ _ hinfo
    obtain ⟨other, hother, hequal⟩ := hactivated
      fun _ _ _ _ _ source found value _ hfound hvalue element
        helement => by
      obtain ⟨node, output, hn, houtput, hsaid⟩ := Graph.exists_output_of_outputInfo? hfound
      exact hnonneg node ((OrderedMap.mem_values_iff _ _).mpr ⟨_, hn⟩) output houtput found hsaid
        value
        hvalue element helement
    obtain rfl := Tensor.info_injective
      (show (Tensor.ofList [17, 19]).info = tensor.info from hsame)
    obtain rfl := Tensor.info_injective
      (show (Tensor.ofList [17, 19]).info = other.info from hequal)
    exact ⟨stats, final, rfl, hinfo, htensor, hother⟩

/-- A negative constant and an activation. -/
def Infer.negativeConstant : Graph :=
  [Operation.addNode
      { opType := "Const", attributes := .ofList [("value", .ints [-5])], outputs := 1 },
    .addNode { opType := "Relu", inputs := 1, outputs := 1 },
    .connect (.output ⟨0⟩ 0) (.input ⟨1⟩ 0)].foldl (fun graph operation =>
      operation.perform.after graph) .empty

/-- Inference passes a negative constant on to the output of an activation that cuts it off. -/
theorem Infer.constant_not_activated :
    negativeConstant.Reachable ∧
      (∀ node ∈ negativeConstant.nodes.values, (∀ port ∈ node.outputs, port.info = none) ∧
        node.opType ∈ ["Const", "Relu"]) ∧
      ∃ stats final, (inferGraph .standard).run negativeConstant = .ok stats final ∧
        final.outputInfo? (.output ⟨1⟩ 0) = some (.ofValue [-5]) ∧
          negativeConstant.evaluate (max 0) ⟨1⟩ = some (.ofList [0]) := by
  refine ⟨Graph.reachable_of_operations _, by decide +kernel, ?_⟩
  have hok : (match (inferGraph .standard).run negativeConstant with
      | .ok _ final => decide (final.outputInfo? (.output ⟨1⟩ 0) = some (.ofValue [-5]))
      | .error _ _ => false) = true := by decide +kernel
  cases hrun : (inferGraph .standard).run negativeConstant with
  | error error left =>
    rw [hrun] at hok
    cases hok
  | ok stats final =>
    rw [hrun] at hok
    exact ⟨stats, final, rfl, of_decide_eq_true hok, by decide +kernel⟩

end OpGraph
