import OpGraph.Proofs.Infer.Function
import OpGraph.Proofs.Text.WrittenList
import OpGraph.Source.Registry

/-!
# Records of poolings

The two formats name the settings of a pooling differently, write the paddings and the rounding
differently, and one of them may write its lists as texts. Neither difference is seen behind the
extractors: a list is read back from any text that writes it, and the same settings come out as the
same canonical operator, which inference cannot tell apart by the format it was read from.

Whether a padding counts in an average is not among the settings, since only one of the formats says
so. Inference does not look at it.
-/

namespace OpGraph

/-! ### Lists in records -/

namespace RawRecord

variable {α : Type} {record native written : RawRecord} {name text : String} {values : List Int}
  {kind : AttrKind} {read? : AttrValue → Option α} {value : AttrValue} {result : α}

/-- A value that is there and can be read is read, whether it must be there or not. -/
theorem require_eq_ok (hget : record.get? name = some value) (hread : read? value = some result) :
    record.require name kind read? = .ok result := by
  rw [require, hget]
  exact congrArg (accept name kind value) hread

theorem readOr_eq_ok (hget : record.get? name = some value) (hread : read? value = some result)
    (default : α) : record.readOr name kind read? default = .ok result := by
  rw [readOr, hget]
  exact congrArg (accept name kind value) hread

/-- An absent value is the default. -/
theorem readOr_eq_default (hget : record.get? name = none) (default : α) :
    record.readOr name kind read? default = .ok default := by
  rw [readOr, hget]

/-- What two records have under a name is read from both alike. -/
theorem require_congr (h : written.get? name = native.get? name) :
    written.require name kind read? = native.require name kind read? := by
  rw [require, require, h]

theorem readOr_congr (h : written.get? name = native.get? name) (default : α) :
    written.readOr name kind read? default = native.readOr name kind read? default := by
  rw [readOr, readOr, h]

/-- A list that can be read from a value is read by both readers of integer lists. -/
theorem ints_eq_ok (hget : record.get? name = some value) (hread : asInts? value = some values) :
    record.requireInts name = .ok values ∧ ∀ default, record.intsOr name default = .ok values :=
  ⟨require_eq_ok hget hread, readOr_eq_ok hget hread⟩

/-- A written list is read as the list, whether there is a default for an absent one or not. -/
theorem ints_of_text (hfits : ∀ value ∈ values, Int64.fits value = true)
    (htext : Text.WritesList values text.toList) (hget : record.get? name = some (.str text)) :
    record.requireInts name = .ok values ∧ ∀ default, record.intsOr name default = .ok values :=
  ints_eq_ok hget (htext.readList?_eq hfits)

/-- Two records have the same under a name, but perhaps a text in place of the list that it writes. -/
def WrittenAt (native written : RawRecord) (name : String) : Prop :=
  written.get? name = native.get? name ∨ ∃ (values : List Int) (text : String),
    native.get? name = some (.ints values) ∧ written.get? name = some (.str text) ∧
      (∀ value ∈ values, Int64.fits value = true) ∧ Text.WritesList values text.toList

/-- Readers of integer lists do not see the difference. -/
theorem WrittenAt.ints_eq (h : native.WrittenAt written name) :
    written.requireInts name = native.requireInts name ∧
      ∀ default, written.intsOr name default = native.intsOr name default := by
  rcases h with heq | ⟨values, text, hnative, hwritten, hfits, htext⟩
  · exact ⟨require_congr heq, readOr_congr heq⟩
  · obtain ⟨hrequired, hor⟩ := ints_of_text hfits htext hwritten
    obtain ⟨hrequired', hor'⟩ := ints_eq_ok hnative rfl
    exact ⟨hrequired.trans hrequired'.symm, fun default => (hor default).trans (hor' default).symm⟩

end RawRecord

/-- The integer lists of a pooling in a record of the second format. -/
def Mxnet.poolingLists : List String := ["kernel", "stride", "pad"]

/-- Integer lists are read back from every text that writes them, and a pooling with its lists written
as texts is read as the pooling with the lists themselves. -/
theorem RawRecord.written_lists_read_back :
    (∀ (values : List Int) (text : String) (record : RawRecord) (name : String),
      (∀ value ∈ values, Int64.fits value = true) → Text.WritesList values text.toList →
        record.get? name = some (.str text) →
          record.requireInts name = .ok values ∧
            ∀ default, record.intsOr name default = .ok values) ∧
    ∀ native written : RawRecord,
      (∀ name ∉ Mxnet.poolingLists, written.get? name = native.get? name) →
        (∀ name ∈ Mxnet.poolingLists, native.WrittenAt written name) →
          Mxnet.pooling written = Mxnet.pooling native := by
  refine ⟨fun values text record name hfits htext hrecord => ints_of_text hfits htext hrecord, ?_⟩
  intro native written hothers hlists
  have hints := fun name hname => (hlists name hname).ints_eq
  have hkernel := (hints "kernel" (by simp [Mxnet.poolingLists])).1
  have hstride := (hints "stride" (by simp [Mxnet.poolingLists])).2
  have hpad := (hints "pad" (by simp [Mxnet.poolingLists])).2
  have hmethod : ∀ default, written.strOr "pool_type" default = native.strOr "pool_type" default :=
    readOr_congr (hothers _ (by simp [Mxnet.poolingLists]))
  have hconvention : ∀ default, written.strOr "pooling_convention" default =
      native.strOr "pooling_convention" default :=
    readOr_congr (hothers _ (by simp [Mxnet.poolingLists]))
  have hglobal : ∀ default, written.boolOr "global_pool" default = native.boolOr "global_pool" default :=
    readOr_congr (hothers _ (by simp [Mxnet.poolingLists]))
  simp only [Mxnet.pooling, hkernel, hstride, hpad, hmethod, hconvention, hglobal]

/-- A pooling whose lists are lists. -/
def RawRecord.nativePooling : RawRecord :=
  .ofList [("kernel", .ints [3, 2]), ("stride", .ints []), ("pad", .ints [-9223372036854775808, 1]),
    ("pool_type", .str "avg")]

/-- The same pooling with its lists as texts: in round brackets, in square brackets around a blank, and
without brackets but with a final comma. -/
def RawRecord.writtenPooling : RawRecord :=
  .ofList [("kernel", .str " (3, 2)"), ("stride", .str "[ ]"),
    ("pad", .str "-9223372036854775808 ,1, "), ("pool_type", .str "avg")]

/-- The texts of this record are read back, the one without elements and the least integer included. -/
theorem RawRecord.writtenPooling_read_back :
    writtenPooling.requireInts "pad" = .ok [-9223372036854775808, 1] ∧
      writtenPooling.intsOr "stride" [1, 1] = .ok [] ∧
        Mxnet.pooling writtenPooling = Mxnet.pooling nativePooling := by
  have hblank : Text.AllBlank [' '] := fun c hc => by
    rw [List.mem_singleton.mp hc]
    rfl
  have hkernel : Text.WritesList [3, 2] " (3, 2)".toList :=
    ⟨.round, [' '], ['3'] ++ ',' :: [' ', '2'], [], hblank, Text.allBlank_nil,
      .item ⟨[], [], Text.allBlank_nil, Text.allBlank_nil, by decide⟩
        (.last ⟨[' '], [], hblank, Text.allBlank_nil, by decide⟩), by decide⟩
  have hstride : Text.WritesList [] "[ ]".toList :=
    ⟨.square, [], [' '], [], Text.allBlank_nil, Text.allBlank_nil, .none hblank, by decide⟩
  have hpad : Text.WritesList [-9223372036854775808, 1] "-9223372036854775808 ,1, ".toList :=
    ⟨.none, [], "-9223372036854775808 ".toList ++ ',' :: (['1'] ++ ',' :: []), [' '],
      Text.allBlank_nil, hblank,
      .item ⟨[], [' '], Text.allBlank_nil, hblank, by decide +kernel⟩
        (.item ⟨[], [], Text.allBlank_nil, Text.allBlank_nil, by decide⟩ (.none Text.allBlank_nil)),
      by decide +kernel⟩
  have hothers : ∀ name ∉ Mxnet.poolingLists, writtenPooling.get? name = nativePooling.get? name := by
    intro name hname
    simp only [Mxnet.poolingLists, List.mem_cons, List.not_mem_nil, or_false, not_or] at hname
    simp only [writtenPooling, nativePooling, OrderedMap.ofList, List.foldl_cons, List.foldl_nil,
      OrderedMap.get?_insert, hname, if_false]
  refine ⟨(written_lists_read_back.1 _ _ _ _ (by decide) hpad rfl).1,
    (written_lists_read_back.1 _ _ _ _ (by decide) hstride rfl).2 _,
    written_lists_read_back.2 nativePooling writtenPooling hothers ?_⟩
  simp only [Mxnet.poolingLists, List.forall_mem_cons]
  exact ⟨.inr ⟨_, _, rfl, rfl, by decide, hkernel⟩, .inr ⟨_, _, rfl, rfl, by decide, hstride⟩,
    .inr ⟨_, _, rfl, rfl, by decide, hpad⟩, fun _ h => absurd h List.not_mem_nil⟩

/-! ### The same pooling in both formats -/

/-- What both formats say about a pooling. -/
structure PoolingSettings where
  /-- The maximum is taken, or else the average. -/
  isMax : Bool
  /-- Extents of the window. -/
  kernel : List Int
  /-- Distances between window positions. -/
  stride : List Int
  /-- Padding on either side of each axis. -/
  pad : List Int
  /-- A flag other than zero rounds the number of window positions up. -/
  ceilMode : Int
  /-- There is a distance for each axis. -/
  length_stride : stride.length = kernel.length
  /-- There is a padding for each axis. -/
  length_pad : pad.length = kernel.length

namespace PoolingSettings

variable (settings : PoolingSettings)

/-- Name of the method. -/
def method : String := if settings.isMax then "max" else "avg"

/-- Operator of the first format; the method is part of its type. -/
def onnxType : String := if settings.isMax then "MaxPool" else "AveragePool"

/-- Attributes in the first format; pads hold all begins before all ends. -/
def onnxEntries : List (String × AttrValue) :=
  [("kernel_shape", .ints settings.kernel), ("strides", .ints settings.stride),
    ("pads", .ints (settings.pad ++ settings.pad)), ("ceil_mode", .int settings.ceilMode)]

/-- Record of the first format. -/
def onnxRecord : RawRecord := .ofList settings.onnxEntries

/-- Attributes in the second format; there is one pad for both sides of an axis. -/
def mxnetEntries : List (String × AttrValue) :=
  [("kernel", .ints settings.kernel), ("stride", .ints settings.stride), ("pad", .ints settings.pad),
    ("pool_type", .str settings.method),
    ("pooling_convention", .str (if settings.ceilMode ≠ 0 then "full" else "valid"))]

/-- Record of the second format. -/
def mxnetRecord : RawRecord := .ofList settings.mxnetEntries

/-- An extracted operator is the pooling of these settings. -/
structure Canonical (item : Extracted) : Prop where
  /-- The type is that of poolings whose method is an attribute. -/
  opType : item.opType = "Pooling"
  /-- There is one tensor to pool. -/
  inputs : item.inputs = 1
  /-- Positions come out with maxima only. -/
  outputs : item.outputs = if settings.isMax then 2 else 1
  /-- The window has the extents of the kernel. -/
  window : item.attributes.get? "window" = some (.ints settings.kernel)
  /-- The distances are those of the settings. -/
  stride : item.attributes.get? "stride" = some (.ints settings.stride)
  /-- All begins stand before all ends. -/
  pad : item.attributes.get? "pad" = some (.ints (settings.pad ++ settings.pad))
  /-- The flag has become a mode. -/
  rounding : item.attributes.get? "rounding_type" = some (roundingMode (settings.ceilMode ≠ 0))
  /-- The method is an attribute. -/
  method : item.attributes.get? "pool_method" = some (.str settings.method)
  /-- The window does not cover the whole input. -/
  isGlobal : item.attributes.isSet "global_pool" = false
  /-- The pads are given. -/
  autoPad : item.attributes.get? "auto_pad" = none

/-- There are as many distances and pads as the first format asks for. -/
theorem checkWindow_eq_ok :
    Onnx.checkWindow settings.kernel.length settings.stride (settings.pad ++ settings.pad) =
      .ok () := by
  have hpads : (settings.pad ++ settings.pad).length = 2 * settings.kernel.length := by
    rw [List.length_append, settings.length_pad]
    omega
  rw [Onnx.checkWindow, if_neg (not_not.mpr settings.length_stride), if_neg (not_not.mpr hpads)]

/-- The first format reads its record with success, for either method. -/
theorem onnx_pooling_eq (method : String) (excludePad : Bool) :
    Onnx.pooling settings.onnxRecord method excludePad = .ok (.ofList
      [("pool_method", .str method), ("window", .ints settings.kernel),
        ("stride", .ints settings.stride), ("pad", .ints (settings.pad ++ settings.pad)),
        ("rounding_type", roundingMode (settings.ceilMode ≠ 0)),
        ("exclude_pad", .bool excludePad)]) := by
  have hget : ∀ name, settings.onnxRecord.get? name = settings.onnxEntries.lookup name :=
    OrderedMap.get?_ofList (by simp [onnxEntries])
  have hkernel : settings.onnxRecord.requireInts "kernel_shape" = .ok settings.kernel :=
    RawRecord.require_eq_ok (hget _) rfl
  have hstride : ∀ default, settings.onnxRecord.intsOr "strides" default = .ok settings.stride :=
    RawRecord.readOr_eq_ok (hget _) rfl
  have hpads : ∀ default, settings.onnxRecord.intsOr "pads" default =
      .ok (settings.pad ++ settings.pad) := RawRecord.readOr_eq_ok (hget _) rfl
  have hceil : ∀ default, settings.onnxRecord.intOr "ceil_mode" default = .ok settings.ceilMode :=
    RawRecord.readOr_eq_ok (hget _) rfl
  have hauto : ∀ default, settings.onnxRecord.strOr "auto_pad" default = .ok default :=
    RawRecord.readOr_eq_default (hget _)
  exact Except.bind_eq_ok_iff.mpr ⟨_, hkernel, Except.bind_eq_ok_iff.mpr ⟨_, hstride _,
    Except.bind_eq_ok_iff.mpr ⟨_, hpads _, Except.bind_eq_ok_iff.mpr ⟨_, hceil _,
      Except.bind_eq_ok_iff.mpr ⟨_, hauto _, Except.bind_eq_ok_iff.mpr
        ⟨(), settings.checkWindow_eq_ok, rfl⟩⟩⟩⟩⟩⟩

/-- The first format gives the canonical pooling. -/
theorem exists_onnx : ∃ item,
    ExtractorRegistry.standard.extract .onnx settings.onnxType settings.onnxRecord = .ok item ∧
      settings.Canonical item := by
  have hcanonical : ∀ excludePad, settings.Canonical {
      opType := "Pooling", outputs := if settings.isMax then 2 else 1,
      attributes := .ofList [("pool_method", .str settings.method), ("window", .ints settings.kernel),
        ("stride", .ints settings.stride), ("pad", .ints (settings.pad ++ settings.pad)),
        ("rounding_type", roundingMode (settings.ceilMode ≠ 0)),
        ("exclude_pad", .bool excludePad)] } := by
    intro excludePad
    constructor
    case opType | inputs | outputs => rfl
    all_goals simp [Attributes.isSet, Attributes.get?_ofList, List.lookup_cons]
  cases hmax : settings.isMax with
  | true =>
    have htype : settings.onnxType = "MaxPool" := if_pos hmax
    have hmethod : settings.method = "max" := if_pos hmax
    refine ⟨_, ?_, hcanonical false⟩
    rw [htype, hmethod, if_pos hmax]
    exact Except.bind_eq_ok_iff.mpr ⟨_, settings.onnx_pooling_eq "max" false, rfl⟩
  | false =>
    have hnot : ¬ settings.isMax = true := by simp [hmax]
    have htype : settings.onnxType = "AveragePool" := if_neg hnot
    have hmethod : settings.method = "avg" := if_neg hnot
    refine ⟨_, ?_, hcanonical (decide ((0 : Int) = 0))⟩
    rw [htype, hmethod, if_neg hnot]
    exact Except.bind_eq_ok_iff.mpr ⟨0, rfl, Except.bind_eq_ok_iff.mpr
      ⟨_, settings.onnx_pooling_eq "avg" (decide ((0 : Int) = 0)), rfl⟩⟩

/-- The second format reads its record with success. -/
theorem mxnet_pooling_eq :
    Mxnet.pooling settings.mxnetRecord = .ok {
      opType := "Pooling", outputs := if settings.method = "max" then 2 else 1,
      attributes := .ofList [("pool_method", .str settings.method), ("window", .ints settings.kernel),
        ("stride", .ints settings.stride), ("pad", .ints (settings.pad ++ settings.pad)),
        ("rounding_type", roundingMode
          (decide ((if settings.ceilMode ≠ 0 then "full" else "valid") = "full"))),
        ("global_pool", .bool false), ("exclude_pad", .bool false)] } := by
  have hget : ∀ name, settings.mxnetRecord.get? name = settings.mxnetEntries.lookup name :=
    OrderedMap.get?_ofList (by simp [mxnetEntries])
  have hkernel : settings.mxnetRecord.requireInts "kernel" = .ok settings.kernel :=
    RawRecord.require_eq_ok (hget _) rfl
  have hstride : ∀ default, settings.mxnetRecord.intsOr "stride" default = .ok settings.stride :=
    RawRecord.readOr_eq_ok (hget _) rfl
  have hpad : ∀ default, settings.mxnetRecord.intsOr "pad" default = .ok settings.pad :=
    RawRecord.readOr_eq_ok (hget _) rfl
  have hmethod : ∀ default, settings.mxnetRecord.strOr "pool_type" default = .ok settings.method :=
    RawRecord.readOr_eq_ok (hget _) rfl
  have hconvention : ∀ default, settings.mxnetRecord.strOr "pooling_convention" default =
      .ok (if settings.ceilMode ≠ 0 then "full" else "valid") := RawRecord.readOr_eq_ok (hget _) rfl
  have hglobal : ∀ default, settings.mxnetRecord.boolOr "global_pool" default = .ok default :=
    RawRecord.readOr_eq_default (hget _)
  exact Except.bind_eq_ok_iff.mpr ⟨_, hkernel, Except.bind_eq_ok_iff.mpr ⟨_, hstride _,
    Except.bind_eq_ok_iff.mpr ⟨_, hpad _, Except.bind_eq_ok_iff.mpr ⟨_, hmethod _,
      Except.bind_eq_ok_iff.mpr ⟨_, hconvention _, Except.bind_eq_ok_iff.mpr ⟨_, hglobal _, rfl⟩⟩⟩⟩⟩⟩

/-- The second format gives the canonical pooling. -/
theorem exists_mxnet : ∃ item,
    ExtractorRegistry.standard.extract .mxnet "Pooling" settings.mxnetRecord = .ok item ∧
      settings.Canonical item := by
  have hmethod : settings.method = "max" ↔ settings.isMax = true := by
    unfold method
    split <;> simp [*]
  refine ⟨_, settings.mxnet_pooling_eq, ?_⟩
  constructor
  case opType | inputs => rfl
  case outputs => exact if_congr hmethod rfl rfl
  all_goals simp [Attributes.isSet, AttrValue.isTruthy, Attributes.get?_ofList, List.lookup_cons]

variable {settings}

/-- Inference cannot tell two canonical poolings of the same settings apart. -/
theorem Canonical.infer_eq {item other : Extracted} (h : settings.Canonical item)
    (hother : settings.Canonical other) (name : String) (inputs : List InputPort)
    (outputs : List OutputPort) (infos : List TensorInfo) :
    Infer.pooling ⟨name, item.opType, item.attributes, inputs, outputs⟩ infos =
      Infer.pooling ⟨name, other.opType, other.attributes, inputs, outputs⟩ infos := by
  unfold Infer.pooling Infer.poolingWith Infer.requireInts
  simp only [Attributes.ints?, Attributes.str?, h.window, hother.window, h.stride, hother.stride, h.pad,
    hother.pad, h.rounding, hother.rounding, h.isGlobal, hother.isGlobal, h.autoPad, hother.autoPad,
    h.opType, hother.opType]
  rfl

end PoolingSettings

/-- Both formats agree on poolings. The records of one pooling are read with success as the canonical
pooling of its settings, and inference of two nodes that are made from them has the same outcome for
all inputs, errors included. -/
theorem PoolingSettings.formats_agree (settings : PoolingSettings) :
    ∃ onnx mxnet : Extracted,
      ExtractorRegistry.standard.extract .onnx settings.onnxType settings.onnxRecord = .ok onnx ∧
      ExtractorRegistry.standard.extract .mxnet "Pooling" settings.mxnetRecord = .ok mxnet ∧
      settings.Canonical onnx ∧ settings.Canonical mxnet ∧
      ∀ name inputs outputs infos,
        Infer.pooling ⟨name, onnx.opType, onnx.attributes, inputs, outputs⟩ infos =
          Infer.pooling ⟨name, mxnet.opType, mxnet.attributes, inputs, outputs⟩ infos := by
  obtain ⟨onnx, honnx, honnxCanonical⟩ := settings.exists_onnx
  obtain ⟨mxnet, hmxnet, hmxnetCanonical⟩ := settings.exists_mxnet
  exact ⟨onnx, mxnet, honnx, hmxnet, honnxCanonical, hmxnetCanonical,
    honnxCanonical.infer_eq hmxnetCanonical⟩

end OpGraph
