import OpGraph.Proofs.Edit.Upheld
import OpGraph.Proofs.PipelineFailures
import OpGraph.Proofs.Source.Names

/-!
# Names of inputs

A graph input keeps its name through the pipeline unless it is requested as an output itself. Then
the resolution of markers takes it for the producer of the output, as it does any other node, and
names it after the output. An output may also be requested of another output, so what an input
delivers can be requested several times over; the last of these requests names it.
-/

namespace OpGraph

open Edit

/-- What is requested at a position is the input of that name: the output names the input as its
source, or it names another output that exposes the input. -/
inductive SourceModel.Exposes (model : SourceModel) (input : String) : Nat → Prop where
  /-- The output is requested of the input. -/
  | direct {position : Nat} {output : SourceOutput} (found : model.outputs[position]? = some output)
      (source : output.source = input) : Exposes model input position
  /-- The output is requested of an output that exposes the input. -/
  | through {position earlier : Nat} {output other : SourceOutput}
      (found : model.outputs[position]? = some output)
      (before : model.outputs[earlier]? = some other) (source : output.source = other.name)
      (rest : Exposes model input earlier) : Exposes model input position

/-! ### Holders of an imported graph -/

namespace SourceModel

variable {model : SourceModel} {extracted : List Extracted} {names : SourceNames} {imported : Graph}
  {index position : Nat} {name : String} {shape : Shape} {output : SourceOutput}

/-- A name of the model is that of a producer or of a requested output. -/
theorem Laid.get?_names (h : Laid model extracted model.outputs names imported) {id : NodeId} :
    names.get? name = some id ↔ (name, id) ∈ model.producers ∨
      ∃ position output, model.outputs[position]? = some output ∧ output.name = name ∧
        model.marker position = id := by
  rw [names.get?_eq_some_iff, h.entries, List.mem_append, List.mem_map]
  refine or_congr_right ⟨?_, ?_⟩
  · rintro ⟨⟨output, position⟩, hmem, hentry⟩
    obtain ⟨hname, hid⟩ := Prod.mk.inj hentry
    exact ⟨position, output, List.mem_zipIdx_iff_getElem?.mp hmem, hname, hid⟩
  · rintro ⟨position, output, houtput, hname, hid⟩
    exact ⟨(output, position), List.mem_zipIdx_iff_getElem?.mpr houtput, Prod.ext hname hid⟩

/-- Among the producers an input is found by its position. -/
theorem mem_producers_input (hinput : model.inputs[index]? = some (name, shape)) {other : String} :
    (other, (⟨index⟩ : NodeId)) ∈ model.producers ↔ other = name := by
  have hlt := (List.getElem?_eq_some_iff.mp hinput).1
  have hentry : (model.inputs.map (·.1) ++ model.operators.map (·.name))[index]? = some name := by
    rw [List.getElem?_append_left (by simpa using hlt), List.getElem?_map, hinput, Option.map_some]
  simp only [producers, List.mem_map, Prod.exists, List.mem_zipIdx_iff_getElem?]
  constructor
  · rintro ⟨found, at_, hfound, hsame⟩
    obtain ⟨rfl, hat⟩ := Prod.mk.inj hsame
    obtain rfl := NodeId.mk.inj hat
    exact Option.some.inj (hfound.symm.trans hentry)
  · rintro rfl
    exact ⟨other, index, hentry, rfl⟩

/-- Producers come before the markers. -/
theorem lt_firstMarker_of_mem_producers {id : NodeId} (hmem : (name, id) ∈ model.producers) :
    id.index < model.firstMarker := by
  obtain ⟨⟨found, at_⟩, hfound, hsame⟩ := List.mem_map.mp hmem
  obtain ⟨_, rfl⟩ := Prod.mk.inj hsame
  have hlt := List.snd_lt_of_mem_zipIdx hfound
  simpa [firstMarker] using hlt

/-- Outputs at two positions have two markers. -/
theorem marker_injective (model : SourceModel) : Function.Injective model.marker := by
  intro position other hsame
  have hindex := congrArg NodeId.index hsame
  simp only [marker] at hindex
  omega

/-- The markers are the nodes of the requested outputs. -/
theorem Laid.isMarker_iff (h : Laid model extracted model.outputs names imported) {id : NodeId} :
    imported.IsMarker id ↔ ∃ position < model.outputs.length, id = model.marker position := by
  constructor
  · rintro ⟨node, hn, htype⟩
    exact h.marked id node.bare (Graph.bare?_of_node? hn) htype
  · rintro ⟨position, hlt, rfl⟩
    obtain ⟨bare, hbare, htype, _⟩ :=
      (h.placed position _ (List.getElem?_eq_getElem hlt)).marker
    obtain ⟨node, hn, rfl⟩ := Option.map_eq_some_iff.mp hbare
    exact ⟨node, hn, htype⟩

/-- An input is no marker. -/
theorem Laid.not_isMarker_input (h : Laid model extracted model.outputs names imported)
    (hlt : index < model.inputs.length) : ¬ imported.IsMarker ⟨index⟩ := fun hmarker => by
  obtain ⟨position, _, hid⟩ := h.isMarker_iff.mp hmarker
  have hindex : index = model.firstMarker + 2 * position := congrArg NodeId.index hid
  simp only [firstMarker] at hindex
  omega

/-- The resolution of markers names an input after the outputs that expose it, and after no
others. -/
theorem Laid.holder_iff_exposes (h : Laid model extracted model.outputs names imported)
    (hinput : model.inputs[index]? = some (name, shape))
    (hports : ∃ bare, imported.bare? ⟨index⟩ = some bare ∧ bare.outputs.length = 1)
    (hlt : position < model.outputs.length) :
    imported.Holder (model.marker position) ⟨index⟩ ↔ model.Exposes name position := by
  have hindex := (List.getElem?_eq_some_iff.mp hinput).1
  have hplain := h.not_isMarker_input hindex
  constructor
  · intro hholder
    generalize hmarker : model.marker position = marker at hholder
    generalize hheld : (⟨index⟩ : NodeId) = held at hholder
    induction hholder generalizing position with
    | @through marker held source reads chained _ ih =>
      subst hmarker
      have houtput := List.getElem?_eq_getElem hlt
      obtain ⟨origin, horigin, _, hfeed⟩ := (h.placed position _ houtput).requested
      obtain rfl := Option.some.inj (reads.symm.trans hfeed)
      obtain ⟨earlier, hearlier, hid⟩ := h.isMarker_iff.mp chained
      change origin = _ at hid
      rcases h.get?_names.mp horigin with hproducer | ⟨at_, other, hother, hname, hat⟩
      · have hbelow := lt_firstMarker_of_mem_producers hproducer
        rw [hid] at hbelow
        exact absurd hbelow (Nat.not_lt.mpr (Nat.le_add_right _ _))
      · have hsame : at_ = earlier := model.marker_injective (hat.trans hid)
        exact .through houtput (hsame ▸ hother) hname.symm (ih hearlier hid.symm hheld)
    | @producer marker source reads plain _ =>
      subst hmarker
      have houtput := List.getElem?_eq_getElem hlt
      obtain ⟨origin, horigin, _, hfeed⟩ := (h.placed position _ houtput).requested
      obtain rfl := Option.some.inj (reads.symm.trans hfeed)
      change _ = origin at hheld
      subst hheld
      rcases h.get?_names.mp horigin with hproducer | ⟨at_, other, hother, _, hat⟩
      · exact .direct houtput ((mem_producers_input hinput).mp hproducer)
      · exact absurd (h.isMarker_iff.mpr ⟨at_, (List.getElem?_eq_some_iff.mp hother).1, hat.symm⟩) hplain
    | stays _ _ _ =>
      subst hheld
      exact absurd (h.isMarker_iff.mpr ⟨position, hlt, hmarker.symm⟩) hplain
  · intro hexposes
    induction hexposes with
    | @direct position output found source =>
      obtain ⟨origin, horigin, _, hfeed⟩ := (h.placed position output found).requested
      have hnamed := h.get?_names.mpr (.inl ((mem_producers_input hinput).mpr source))
      obtain rfl := Option.some.inj (hnamed.symm.trans horigin)
      obtain ⟨bare, hbare, hone⟩ := hports
      -- The input has one output, which is the one that the marker reads.
      obtain ⟨_, hexists, hzero⟩ := Graph.hasPort_iff_bare?.mp (h.coherent.hasPort_of_inputSource? hfeed)
      obtain rfl := Option.some.inj (hexists.symm.trans hbare)
      have hport : output.sourcePort = 0 := by
        change output.sourcePort < _ at hzero
        simp only [PortRef.output, Node.portCount] at hzero
        omega
      rw [hport] at hfeed
      exact .producer hfeed hplain (Graph.usesOneOutput_of_feeds h.coherent hbare hone ⟨_, _, hfeed⟩)
    | @through position earlier output other found before source _ ih =>
      obtain ⟨origin, horigin, _, hfeed⟩ := (h.placed position output found).requested
      have hearlier := (List.getElem?_eq_some_iff.mp before).1
      have hnamed := h.get?_names.mpr (.inr ⟨earlier, other, before, source.symm, rfl⟩)
      obtain rfl := Option.some.inj (hnamed.symm.trans horigin)
      exact .through hfeed (h.isMarker_iff.mpr ⟨earlier, hearlier, rfl⟩) (ih hearlier)

end SourceModel

/-! ### Holders after inference -/

namespace Graph

variable {graph other known : Graph} {hidden : NodeId → Bool} {marker holder id : NodeId}

/-- Who holds a name depends on what feeds the markers and on how many outputs their producers
use. -/
theorem Holder.congr (h : graph.Holder marker holder)
    (hsource : ∀ id, other.inputSource? id 0 = graph.inputSource? id 0)
    (hmarker : ∀ id, other.IsMarker id ↔ graph.IsMarker id)
    (hused : ∀ id, other.UsesOneOutput id ↔ graph.UsesOneOutput id) : other.Holder marker holder := by
  induction h with
  | through reads chained _ ih =>
    exact .through ((hsource _).trans reads) ((hmarker _).mpr chained) ih
  | producer reads plain single =>
    exact .producer ((hsource _).trans reads) (plain ∘ (hmarker _).mp) ((hused _).mpr single)
  | stays reads plain several =>
    exact .stays ((hsource _).trans reads) (plain ∘ (hmarker _).mp) (several ∘ (hused _).mp)

theorem usesOneOutput_hide : (known.hide hidden).UsesOneOutput id ↔ known.UsesOneOutput id := by
  unfold UsesOneOutput
  rw [node?_hide]
  cases known.node? id with
  | none => simp
  | some node => cases hidden id <;> simp [Node.forgetIf]

/-- What is known about tensors does not matter for who holds a name. -/
theorem holder_hide : (known.hide hidden).Holder marker holder ↔ known.Holder marker holder :=
  ⟨fun h => h.congr (fun _ => (inputSource?_hide _ _).symm) (fun _ => isMarker_hide.symm)
      fun _ => usesOneOutput_hide.symm,
    fun h => h.congr (fun _ => inputSource?_hide _ _) (fun _ => isMarker_hide)
      fun _ => usesOneOutput_hide⟩

theorem nameOf?_hide : (known.hide hidden).nameOf? id = known.nameOf? id := by
  unfold nameOf?
  rw [node?_hide, Option.map_map]
  congr 1
  funext node
  exact node.name_forgetIf (hidden id)

end Graph

/-! ### Names after the passes -/

variable {known final : Graph} {id : NodeId} {name : String}

/-- A name can stand additions to its node. -/
theorem Node.persistent_name (name : String) : Node.Persistent (·.name = name) :=
  ⟨fun _ h => h, fun _ h => h, fun _ _ _ h _ => h, fun _ _ h => h⟩

/-- The passes after the first leave the names of all nodes. -/
theorem upholds_name_laterPasses {passes : List Pass}
    (hpasses : ∀ pass ∈ passes, pass ∈ [Pass.maxPool, .avgPool, .gatherAxis]) (verify : Bool)
    (stats : PassStats) :
    Keeps (Graph.Upholds (·.name = name) id) (passes.foldlM (fun (stats : PassStats) (pass : Pass) =>
      return stats ++ (← pass.run verify)) stats) := by
  have hadd : Additions (Graph.Upholds (·.name = name) id) :=
    additions_upholds (Node.persistent_name name)
  have hset : ∀ target opType, Keeps (Graph.Upholds (·.name = name) id) (setOpType target opType) :=
    fun _ opType => upholds_setOpType opType (.inr fun _ h => h)
  refine keeps_foldlM (fun pass hmem stats => keeps_bind (keeps_run_pass verify fun found => ?_)
    fun _ => keeps_pure _) stats
  have hpass := hpasses pass hmem
  simp only [List.mem_cons, List.not_mem_nil, or_false] at hpass
  rcases hpass with rfl | rfl | rfl
  · exact hadd.canonizeMaxPool fun target _ => hset target _
  · exact hadd.canonizeAvgPool fun target _ => hset target _
  · exact hadd.canonizeGather fun target _ => hset target _

/-- A successful run of the passes after the first leaves the names of all nodes. -/
theorem upholds_name_of_laterPasses (hknown : known.Coherent) {passes : List Pass} {verify : Bool}
    (hpasses : ∀ pass ∈ passes, pass ∈ [Pass.maxPool, .avgPool, .gatherAxis])
    {stats next : PassStats}
    (hrun : (passes.foldlM (fun (stats : PassStats) (pass : Pass) =>
      return stats ++ (← pass.run verify)) stats).run known = .ok next final)
    (hname : known.nameOf? id = some name) : final.Upholds (·.name = name) id := by
  obtain ⟨node, hn, hown⟩ := Option.map_eq_some_iff.mp hname
  have hkept := upholds_name_laterPasses hpasses verify stats known
    (hknown.registered.upholds hn hown)
  rwa [after_of_run_ok hrun] at hkept

namespace Pipeline.Standard

variable {config : PipelineConfig} {pipeline : Pipeline} {schedule : List String}
  {stats : Option PassStats} (h : pipeline.Standard config schedule) (hmarked : known.Marked)
include h hmarked

/-- A node that is neither a marker nor serves one keeps its name, whatever passes run. -/
theorem upholds_own_name
    (hrun : (stage pipeline.config.runPasses
      (pipeline.passes.run pipeline.config.verifyPostconditions)).run known = .ok stats final)
    (hplain : ¬ known.IsMarker id)
    (hnone : ∀ marker, known.IsMarker marker → ¬ known.Holder marker id)
    (hname : known.nameOf? id = some name) : final.Upholds (·.name = name) id := by
  have hlater : ∀ chosen : String → Bool,
      ∀ pass ∈ [Pass.maxPool, .avgPool, .gatherAxis].filter (chosen ·.name),
        pass ∈ [Pass.maxPool, .avgPool, .gatherAxis] := fun _ _ hmem => (List.mem_filter.mp hmem).1
  cases hchosen : pipeline.config.runPasses with
  | false =>
    rw [hchosen] at hrun
    obtain ⟨_, rfl⟩ := run_stage_skipped.mp hrun
    obtain ⟨node, hn, hown⟩ := Option.map_eq_some_iff.mp hname
    exact hmarked.coherent.registered.upholds hn hown
  | true =>
    rw [hchosen] at hrun
    obtain ⟨_, hrun, _⟩ := run_stage_chosen.mp hrun
    obtain ⟨order, horder, hrun⟩ := run_ofExcept_bind_eq_ok.mp hrun
    obtain rfl := Except.ok.inj (horder.symm.trans h.ordered)
    obtain ⟨chosen, hscheduled⟩ := h.exists_choice
    rw [hscheduled, PassRegistry.standard, List.filter_cons] at hrun
    split at hrun
    · rw [List.foldlM_cons] at hrun
      obtain ⟨_, middle, hfirst, hrun⟩ := run_bind_eq_ok.mp hrun
      obtain ⟨_, _, hfirst, hpure⟩ := run_bind_eq_ok.mp hfirst
      cases hpure
      obtain ⟨bound, _, htransferred⟩ := hmarked.transferred_of_run hfirst
      refine upholds_name_of_laterPasses htransferred.coherent (hlater chosen) hrun ?_
      rw [htransferred.own id (fun hdone => absurd hdone.1 hplain) fun marker hdone =>
        hnone marker hdone.1]
      exact hname
    · exact upholds_name_of_laterPasses hmarked.coherent (hlater chosen) hrun hname

/-- With all passes a node that serves markers is named after the last one. -/
theorem upholds_last_name (hpasses : config.runPasses = true) (hall : config.disabledPasses = [])
    (hrun : (stage pipeline.config.runPasses
      (pipeline.passes.run pipeline.config.verifyPostconditions)).run known = .ok stats final)
    {marker : NodeId} (hmarker : known.IsMarker marker) (hholder : known.Holder marker id)
    (hlast : ∀ other, known.IsMarker other → known.Holder other id → other.index ≤ marker.index)
    (hname : known.nameOf? marker = some name) : final.Upholds (·.name = name) id := by
  have hregistry : PassRegistry.standard = pipeline.passes := by
    have hdisabled := h.disabled
    rw [hall] at hdisabled
    exact Except.ok.inj hdisabled
  rw [h.config_eq, hpasses, ← hregistry] at hrun
  obtain ⟨_, hrun, _⟩ := run_stage_chosen.mp hrun
  obtain ⟨order, horder, hrun⟩ := run_ofExcept_bind_eq_ok.mp hrun
  obtain rfl := Except.ok.inj (horder.symm.trans PassRegistry.schedule_standard)
  rw [PassRegistry.scheduled_standard, PassRegistry.standard, List.foldlM_cons] at hrun
  obtain ⟨_, middle, hfirst, hrun⟩ := run_bind_eq_ok.mp hrun
  obtain ⟨_, _, hfirst, hpure⟩ := run_bind_eq_ok.mp hfirst
  cases hpure
  obtain ⟨bound, hbound, htransferred⟩ := hmarked.transferred_of_run hfirst
  refine upholds_name_of_laterPasses htransferred.coherent (fun _ hmem => hmem) hrun ?_
  rw [htransferred.last id marker ⟨hmarker, hbound marker hmarker⟩ hholder fun other hother =>
    hlast other hother.1]
  exact hname

end Pipeline.Standard

/-! ### Types after the passes -/

/-- A standard pass leaves the type of every node for which no standard pass looks. -/
theorem Pass.Standard.ensures_upholds_type {pass : Pass} (hpass : pass.Standard) {opType : String}
    (hraw : opType ∉ rawTypes) (verify : Bool) :
    Ensures (Graph.Upholds (·.opType = opType) id) (pass.run verify)
      fun _ => Graph.Upholds (·.opType = opType) id := by
  refine ensures_run_pass verify fun found => ?_
  rintro graph value result ⟨h, hmatches⟩ hrun
  have htarget : ∀ label target, found.require label = .ok target →
      ∀ new, Keeps (Graph.Upholds (·.opType = opType) id) (setOpType target new) := by
    intro label target hrequire new
    refine upholds_setOpType new (.inl ?_)
    rintro rfl
    obtain ⟨node, raw, hsingle, htype, hmem⟩ := hpass.exists_isSingle
    obtain ⟨bound, hbound, haccepts⟩ := Pattern.accepted_of_stillMatches hsingle hmatches hrequire
    have hown : bound.opType = opType := h.holds bound.bare (Graph.bare?_of_node? hbound)
    rw [Pattern.opType_of_accepts htype haccepts] at hown
    exact hraw (hown ▸ hmem)
  have hadd : Additions (Graph.Upholds (·.opType = opType) id) :=
    additions_upholds ⟨fun _ h => h, fun _ h => h, fun _ _ _ h _ => h, fun _ _ h => h⟩
  suffices Keeps (Graph.Upholds (·.opType = opType) id) (pass.apply found) from
    this.ensures graph value result h hrun
  obtain ⟨builtIn, hmem, _, happly⟩ := hpass.exists_mem
  rw [happly]
  simp only [PassRegistry.standard, List.mem_cons, List.not_mem_nil, or_false] at hmem
  rcases hmem with rfl | rfl | rfl | rfl
  · exact upholds_resolveMarker (fun _ _ h => h) fun target hid => htarget _ target hid _
  · exact hadd.canonizeMaxPool fun target hid => htarget _ target hid _
  · exact hadd.canonizeAvgPool fun target hid => htarget _ target hid _
  · exact hadd.canonizeGather fun target hid => htarget _ target hid _

/-- A pipeline of standard passes leaves the type of every such node. -/
theorem ensures_upholds_type_canonicalize {pipeline : Pipeline} {opType : String}
    (hraw : opType ∉ rawTypes) (hpasses : ∀ pass ∈ pipeline.passes, pass.Standard) :
    Ensures (Graph.Upholds (·.opType = opType) id) pipeline.canonicalize
      fun _ => Graph.Upholds (·.opType = opType) id := by
  have hadd : Additions (Graph.Upholds (·.opType = opType) id) :=
    additions_upholds ⟨fun _ h => h, fun _ h => h, fun _ _ _ h _ => h, fun _ _ h => h⟩
  refine ensures_bind (ensures_stage _ (hadd.inferGraph pipeline.inference).ensures) fun _ => ?_
  refine ensures_bind (ensures_stage _ (ensures_run_passes _ fun pass hmem =>
    (hpasses pass hmem).ensures_upholds_type hraw _)) fun _ => ?_
  refine ensures_bind (ensures_stage _ (ensures_check fun _ _ h _ => h)) fun _ => ?_
  exact ensures_pure fun _ h => h

/-! ### Inputs after a run -/

theorem SourceModel.Exposes.lt_length {model : SourceModel} {position : Nat}
    (h : model.Exposes name position) : position < model.outputs.length := by
  cases h with
  | direct found _ => exact (List.getElem?_eq_some_iff.mp found).1
  | through found _ _ _ => exact (List.getElem?_eq_some_iff.mp found).1

/-- A run of a pipeline over the standard registries leaves the node of every input in place, as a
parameter. If no output exposes the input its name leads to the node. If all passes run and some
output exposes the input, the node bears the name that the import gave to the marker of the last
such output, and not its own any more. -/
theorem input_names_of_pipeline {config : PipelineConfig} {pipeline : Pipeline}
    {schedule : List String} {model : SourceModel} {final : Graph} {report : PipelineReport}
    (hbuild : ({ config } : Pipeline).build = .ok (pipeline, schedule))
    (hrun : pipeline.run model = .ok (final, report)) :
    ∃ imported, model.toGraph .standard = .ok imported ∧
      ∀ index name shape, model.inputs[index]? = some (name, shape) →
        (∃ node, final.node? ⟨index⟩ = some node ∧ node.opType = "Parameter") ∧
        ((∀ position, ¬ model.Exposes name position) → final.idOf? name = some ⟨index⟩) ∧
        (config.runPasses = true → config.disabledPasses = [] →
          ∀ position, model.Exposes name position →
            (∀ later, position < later → ¬ model.Exposes name later) →
              ∃ taken ≠ name, imported.idOf? taken = some (model.marker position) ∧
                final.idOf? taken = some ⟨index⟩) := by
  have hpipeline := Pipeline.standard_of_build hbuild
  obtain ⟨imported, himport, hfaithful⟩ := faithful_of_pipeline hbuild hrun
  obtain ⟨start, account, hstart, hstages, _⟩ := Pipeline.exists_of_run_eq_ok hrun
  rw [hpipeline.extractors_eq, himport] at hstart
  obtain rfl := Except.ok.inj hstart
  obtain ⟨extracted, names, _, hlaid⟩ :=
    SourceModel.laid_of_toGraph himport ExtractorRegistry.leavesMarkers_standard
  refine ⟨imported, himport, fun index name shape hinput => ?_⟩
  obtain ⟨hnamed, node, hn, hown, hmade⟩ := (SourceModel.names_of_toGraph himport).1 index _ hinput
  have hindex := (List.getElem?_eq_some_iff.mp hinput).1
  have hplain := hlaid.not_isMarker_input hindex
  have hports : ∃ bare, imported.bare? ⟨index⟩ = some bare ∧ bare.outputs.length = 1 :=
    ⟨node.bare, Graph.bare?_of_node? hn, (Node.madeFrom_bare.mpr hmade).outputs⟩
  -- The node is still there at the end, whatever it is called.
  have hthere : (final.bare? ⟨index⟩).isSome = true :=
    hfaithful.nodes ⟨index⟩ (by rw [Graph.bare?_of_node? hn]; rfl) hplain
  rw [Graph.isSome_bare?] at hthere
  obtain ⟨now, hnow⟩ := Option.isSome_iff_exists.mp hthere
  have hcalled : ∀ own, final.Upholds (·.name = own) ⟨index⟩ → final.idOf? own = some ⟨index⟩ := by
    intro own hupholds
    rw [hfaithful.coherent.registered.named, Graph.nameOf?, hnow]
    exact congrArg some (hupholds.holds now.bare (Graph.bare?_of_node? hnow))
  have htype : final.Upholds (·.opType = "Parameter") ⟨index⟩ :=
    ensures_upholds_type_canonicalize (by simp [rawTypes]) hpipeline.passes imported account final
      (hlaid.coherent.registered.upholds hn hmade.opType) hstages
  obtain ⟨infer, passes, validation, known, canonical, hfirst, hsecond, hthird, _⟩ :=
    Pipeline.run_canonicalize_eq_ok.mp hstages
  obtain rfl : canonical = final := by
    have hkept := ensures_stage (P := (· = canonical)) pipeline.config.validateOutput
      (ensures_check fun _ _ h _ => h) canonical validation final rfl hthird
    exact hkept.symm
  obtain ⟨hknown, _, hidden, rfl⟩ := hpipeline.settled_of_infer himport hfirst
  have hmarked := hlaid.marked_graph.of_hide hknown
  rw [Graph.isMarker_hide] at hplain
  have hserves : ∀ marker, known.IsMarker marker → known.Holder marker ⟨index⟩ →
      ∃ position, marker = model.marker position ∧ model.Exposes name position := by
    intro marker hmarker hholder
    obtain ⟨position, hlt, rfl⟩ := hlaid.isMarker_iff.mp (Graph.isMarker_hide.mpr hmarker)
    exact ⟨position, rfl,
      (hlaid.holder_iff_exposes hinput hports hlt).mp (Graph.holder_hide.mpr hholder)⟩
  refine ⟨⟨now, hnow, htype.holds now.bare (Graph.bare?_of_node? hnow)⟩, fun hnone => ?_,
    fun hpasses hall position hexposes hlast => ?_⟩
  · refine hcalled name (hpipeline.upholds_own_name hmarked hsecond hplain
      (fun marker hmarker hholder => ?_) ?_)
    · obtain ⟨position, _, hexposes⟩ := hserves marker hmarker hholder
      exact hnone position hexposes
    · exact Graph.nameOf?_hide.symm.trans ((hlaid.coherent.registered.named _ _).mp hnamed)
  · have hlt := hexposes.lt_length
    have hmarker : (known.hide hidden).IsMarker (model.marker position) :=
      hlaid.isMarker_iff.mpr ⟨position, hlt, rfl⟩
    obtain ⟨marker, hmarkerNode, _⟩ := hmarker
    have htaken : (known.hide hidden).nameOf? (model.marker position) = some marker.name := by
      rw [Graph.nameOf?, hmarkerNode]
      rfl
    have htakenId := (hlaid.coherent.registered.named marker.name (model.marker position)).mpr htaken
    refine ⟨marker.name, ?_, htakenId, hcalled _ ?_⟩
    · rintro rfl
      have hsame : model.marker position = ⟨index⟩ := Option.some.inj (htakenId.symm.trans hnamed)
      exact hplain (hsame ▸ Graph.isMarker_hide.mp (hlaid.isMarker_iff.mpr ⟨position, hlt, rfl⟩))
    · refine hpipeline.upholds_last_name hmarked hpasses hall hsecond
        (Graph.isMarker_hide.mp (hlaid.isMarker_iff.mpr ⟨position, hlt, rfl⟩))
        (Graph.holder_hide.mp ((hlaid.holder_iff_exposes hinput hports hlt).mpr hexposes)) ?_
        (Graph.nameOf?_hide.symm.trans htaken)
      intro other hother hholder
      obtain ⟨at_, rfl, hexposed⟩ := hserves other hother hholder
      have hle : at_ ≤ position := Nat.not_lt.mp fun hgt => hlast at_ hgt hexposed
      simp only [SourceModel.marker]
      omega

/-- One input is requested as an output, and the other one only feeds a rectifier. -/
def SourceModel.requestedInput : SourceModel where
  format := .onnx
  inputs := [("x", [4]), ("z", [4])]
  operators := [{ name := "r", operator := "Relu", record := .empty, inputs := 1, outputs := 1 }]
  edges := [⟨"z", 0, "r", 0⟩]
  outputs := [⟨"y", "x", 0⟩, ⟨"w", "y", 0⟩, ⟨"a", "r", 0⟩]

/-- Of the three outputs the first two expose the first input. -/
theorem SourceModel.exposes_requestedInput {name : String} {position : Nat}
    (h : requestedInput.Exposes name position) (hname : name = "x" ∨ name = "z") :
    name = "x" ∧ position < 2 := by
  have houtputs : ∀ position output, requestedInput.outputs[position]? = some output →
      (position = 0 ∧ output = ⟨"y", "x", 0⟩) ∨ (position = 1 ∧ output = ⟨"w", "y", 0⟩) ∨
        (position = 2 ∧ output = ⟨"a", "r", 0⟩) := by
    rintro (_ | _ | _ | position) output found <;> simp_all [requestedInput]
  induction h with
  | direct found source =>
    subst source
    rcases houtputs _ _ found with ⟨rfl, rfl⟩ | ⟨rfl, rfl⟩ | ⟨rfl, rfl⟩ <;> simp at hname ⊢
  | through found before source _ ih =>
    refine ⟨ih.1, ?_⟩
    rcases houtputs _ _ found with ⟨rfl, rfl⟩ | ⟨rfl, rfl⟩ | ⟨rfl, rfl⟩
    · exact Nat.zero_lt_two
    · exact Nat.one_lt_two
    · rcases houtputs _ _ before with ⟨_, rfl⟩ | ⟨_, rfl⟩ | ⟨_, rfl⟩ <;> simp at source

/-- The input that is requested bears another name in the end, and the other one its own. -/
theorem input_names_of_pipeline_requestedInput :
    ∃ pipeline schedule final report, ({} : Pipeline).build = .ok (pipeline, schedule) ∧
      pipeline.run .requestedInput = .ok (final, report) ∧ final.idOf? "z" = some ⟨1⟩ ∧
        ∃ taken ≠ "x", final.idOf? taken = some ⟨0⟩ := by
  obtain ⟨pipeline, schedule, final, report, hbuild, hrun, _⟩ :=
    Pipeline.exists_run_of_any (show ((({} : Pipeline).build.bind fun built =>
      built.1.run .requestedInput).toOption.any fun _ => true) = true by decide +kernel)
  obtain ⟨imported, _, hinputs⟩ := input_names_of_pipeline hbuild hrun
  obtain ⟨_, _, hlast⟩ := hinputs 0 "x" [4] rfl
  obtain ⟨_, hown, _⟩ := hinputs 1 "z" [4] rfl
  have hexposes : SourceModel.requestedInput.Exposes "x" 1 :=
    have hfirst : SourceModel.requestedInput.outputs[0]? = some ⟨"y", "x", 0⟩ := rfl
    have hsecond : SourceModel.requestedInput.outputs[1]? = some ⟨"w", "y", 0⟩ := rfl
    .through hsecond hfirst rfl (.direct hfirst rfl)
  obtain ⟨taken, hother, _, htaken⟩ := hlast rfl rfl 1 hexposes fun later hlater hexposed => by
    have hlt := (SourceModel.exposes_requestedInput hexposed (.inl rfl)).2
    omega
  refine ⟨pipeline, schedule, final, report, hbuild, hrun, hown fun position hexposed => ?_,
    taken, hother, htaken⟩
  exact absurd (SourceModel.exposes_requestedInput hexposed (.inr rfl)).1 (by decide)

/-- The name of the input that is requested leads nowhere in the end. -/
theorem input_name_lost_requestedInput :
    ∃ pipeline schedule final report, ({} : Pipeline).build = .ok (pipeline, schedule) ∧
      pipeline.run .requestedInput = .ok (final, report) ∧
        ("x", [4]) ∈ SourceModel.requestedInput.inputs ∧ final.idOf? "x" = none := by
  obtain ⟨pipeline, schedule, final, report, hbuild, hrun, hlost⟩ :=
    Pipeline.exists_run_of_any (show ((({} : Pipeline).build.bind fun built =>
      built.1.run .requestedInput).toOption.any fun outcome =>
        (outcome.1.idOf? "x").isNone) = true by decide +kernel)
  exact ⟨pipeline, schedule, final, report, hbuild, hrun, by simp [SourceModel.requestedInput],
    Option.isNone_iff_eq_none.mp hlost⟩

end OpGraph
