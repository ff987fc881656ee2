import OpGraph.Proofs.Pass.OutputMarker
import OpGraph.Proofs.Pass.Run
import OpGraph.Proofs.Source.Extract

/-!
# Data flow through markers

A marker passes on what it is fed with, so the tensor at a port is the one at the end of the
path that leads backwards through markers. Inference, terminals and the standard passes let every
input port that was fed in the imported graph receive the same tensor as before.
-/

namespace OpGraph

open Edit

namespace Graph

/-- The node is an output marker. -/
def IsMarker (graph : Graph) (id : NodeId) : Prop :=
  ∃ node, graph.node? id = some node ∧ node.opType = "FakeOutput"

/-- Backwards from the first port, through the first inputs of marked nodes, one comes to the
second, which lies on a node without a mark. -/
inductive Origin (graph : Graph) (marked : NodeId → Prop) : PortRef → PortRef → Prop where
  /-- The port lies on a node without a mark. -/
  | here {port : PortRef} (unmarked : ¬ marked port.node) : Origin graph marked port port
  /-- The port lies on a marked node, which is fed by another port. -/
  | through {port source origin : PortRef} (marks : marked port.node)
      (feed : graph.inputSource? port.node 0 = some source)
      (rest : Origin graph marked source origin) : Origin graph marked port origin

variable {graph imported result : Graph} {marked : NodeId → Prop} {id : NodeId}
  {port source origin : PortRef}

namespace Origin

/-- There is one way back only. -/
theorem unique {other : PortRef} (h : graph.Origin marked port origin)
    (h' : graph.Origin marked port other) : origin = other := by
  induction h with
  | here unmarked =>
    cases h' with
    | here _ => rfl
    | through marks _ _ => exact absurd marks unmarked
  | through marks feed _ ih =>
    cases h' with
    | here unmarked => exact absurd marks unmarked
    | through _ feed' rest' =>
      rw [feed, Option.some.injEq] at feed'
      exact ih (feed' ▸ rest')

/-- The end of the path lies on a node without a mark. -/
theorem unmarked (h : graph.Origin marked port origin) : ¬ marked origin.node := by
  induction h with
  | here unmarked => exact unmarked
  | through _ _ _ ih => exact ih

/-- A path is a path as long as feeds stay. -/
theorem mono (h : graph.Origin marked port origin) (hfeeds : graph.FeedsStay result) :
    result.Origin marked port origin := by
  induction h with
  | here unmarked => exact .here unmarked
  | through marks feed _ ih => exact .through marks (hfeeds _ _ _ feed) ih

/-- A bypass of a marked node shortens the paths through it and leads to the same ends. -/
theorem bypass {name : String} (h : graph.Origin marked port origin) (hmarked : marked id)
    (hsource : graph.inputSource? id 0 = some source) (hbypass : Bypassed graph id name source result) :
    result.Origin marked (PortRef.redirect id source port) origin := by
  have hredirect : PortRef.redirect id source source = source := by
    unfold PortRef.redirect
    split <;> rfl
  induction h with
  | @here port unmarked =>
    have hne : port.node ≠ id := fun heq => unmarked (heq ▸ hmarked)
    rw [PortRef.redirect, if_neg hne]
    exact .here unmarked
  | @through port next origin marks feed _ ih =>
    by_cases hid : port.node = id
    · rw [hid, hsource, Option.some.injEq] at feed
      rw [PortRef.redirect, if_pos hid]
      rw [← feed, hredirect] at ih
      exact ih
    · rw [PortRef.redirect, if_neg hid]
      exact .through marks (by rw [hbypass.inputSource _ hid, feed]; rfl) ih

end Origin

/-- What a node of a given type may be: markers are those of the import, and those that are left
are markers or identities. -/
def MarkerType (imported : Graph) (id : NodeId) (opType : String) : Prop :=
  (opType = "FakeOutput" → imported.IsMarker id) ∧
    (imported.IsMarker id → opType = "FakeOutput" ∨ opType = "Identity")

/-- Every node that reads a tensor in the imported graph reads the same tensor in this one. -/
structure Faithful (imported graph : Graph) : Prop where
  /-- The records agree. -/
  coherent : graph.Coherent
  /-- Numbers go on where the import stopped. -/
  nextNode : imported.nextNode ≤ graph.nextNode
  /-- No marker is new, and those that are left are markers or identities. -/
  markers : ∀ id bare, graph.bare? id = some bare → imported.MarkerType id bare.opType
  /-- All other nodes are still there. -/
  nodes : ∀ id, (imported.bare? id).isSome = true → ¬ imported.IsMarker id →
    (graph.bare? id).isSome = true
  /-- Ports that were fed are fed with the same tensor. -/
  flow : ∀ node index source origin, ¬ imported.IsMarker node →
    imported.inputSource? node index = some source →
      imported.Origin imported.IsMarker source origin →
        ∃ now, graph.inputSource? node index = some now ∧
          graph.Origin imported.IsMarker now origin

namespace Faithful

/-- The import itself. -/
theorem refl (h : imported.Coherent) : imported.Faithful imported where
  coherent := h
  nextNode := Nat.le_refl _
  markers id bare hbare := by
    obtain ⟨node, hn, rfl⟩ := Option.map_eq_some_iff.mp hbare
    refine ⟨fun htype => ⟨node, hn, htype⟩, fun ⟨marker, hmarker, htype⟩ => .inl ?_⟩
    cases hn.symm.trans hmarker
    exact htype
  nodes _ h _ := h
  flow _ _ source _ _ hsource horigin := ⟨source, hsource, horigin⟩

/-- A change that keeps all feeds keeps what is read. -/
theorem of_feedsStay (h : imported.Faithful graph) (hchange : graph.Change result)
    (hfeeds : graph.FeedsStay result)
    (hnodes : ∀ id, (graph.bare? id).isSome = true → (result.bare? id).isSome = true)
    (hmarkers : ∀ id bare, result.bare? id = some bare → imported.MarkerType id bare.opType) :
    imported.Faithful result where
  coherent := h.coherent.change hchange
  nextNode := Nat.le_trans h.nextNode (Later.of_change hchange).nextNode
  markers := hmarkers
  nodes id hid hunmarked := hnodes id (h.nodes id hid hunmarked)
  flow node index source origin hunmarked hsource horigin := by
    obtain ⟨now, hnow, hpath⟩ := h.flow node index source origin hunmarked hsource horigin
    exact ⟨now, hfeeds _ _ _ hnow, hpath.mono hfeeds⟩

/-- A new node that is no marker feeds nothing. -/
theorem insertNode (h : imported.Faithful graph) (himported : imported.Coherent) {desc : NodeDesc}
    (htype : desc.opType ≠ "FakeOutput") : imported.Faithful (graph.insertNode desc) := by
  refine h.of_feedsStay (.insertNode desc) (h.coherent.feedsStay_insertNode desc) (fun id hid => ?_)
    fun id bare hbare => ?_
  · rw [bare?_insertNode]
    split
    · rfl
    · exact hid
  · rw [bare?_insertNode] at hbare
    split at hbare
    · rename_i hid
      cases hbare
      refine ⟨fun hmarker => absurd hmarker htype, fun ⟨marker, hmarker, _⟩ => ?_⟩
      have hlt := himported.registered.lt_nextNode hmarker
      rw [hid] at hlt
      exact absurd h.nextNode (Nat.not_le.mpr hlt)
    · exact h.markers id bare hbare

/-- A neutral change of a node changes no feed. -/
theorem modifyNode (h : imported.Faithful graph) {f g : Node → Node} (hf : Node.Neutral f)
    (hg : ∀ node, (f node).bare = g node.bare)
    (hmarkers : ∀ bare, imported.MarkerType id bare.opType → imported.MarkerType id (g bare).opType) :
    imported.Faithful (graph.modifyNode id f) := by
  refine h.of_feedsStay (.modifyNode id hf) (fun node index port hport => ?_) (fun other hother => ?_)
    fun other bare hbare => ?_
  · rw [inputSource?_modifyNode hf]
    exact hport
  · rw [bare?_modifyNode hg]
    split
    · rw [Option.isSome_map]
      exact hother
    · exact hother
  · rw [bare?_modifyNode hg] at hbare
    split at hbare
    · rename_i hid
      obtain ⟨old, hold, rfl⟩ := Option.map_eq_some_iff.mp hbare
      rw [hid] at hold ⊢
      exact hmarkers old (h.markers id old hold)
    · exact h.markers other bare hbare

/-- A connection is made to a port that nothing feeds. -/
theorem insertConnection (h : imported.Faithful graph) {destination : PortRef}
    (hcheck : graph.checkConnect source destination = .ok ()) :
    imported.Faithful (graph.insertConnection source destination) := by
  refine h.of_feedsStay (.insertConnection hcheck) (h.coherent.feedsStay_insertConnection hcheck)
    (fun id hid => ?_) fun id bare hbare => ?_
  · rw [bare?_insertConnection]
    exact hid
  · rw [bare?_insertConnection] at hbare
    exact h.markers id bare hbare

/-- A bypass of a marker of the import. -/
theorem bypass (h : imported.Faithful graph) {name : String} (hmarker : imported.IsMarker id)
    (hsource : graph.inputSource? id 0 = some source) (hcoherent : result.Coherent)
    (hnext : graph.nextNode ≤ result.nextNode)
    (hbypass : Bypassed graph id name source result) : imported.Faithful result where
  coherent := hcoherent
  nextNode := Nat.le_trans h.nextNode hnext
  markers other bare hbare := by
    obtain ⟨old, hold, hsame⟩ := hbypass.exists_before hbare
    rw [hsame]
    exact h.markers other old hold
  nodes other hother hunmarked := by
    have hne : other ≠ id := fun heq => hunmarked (heq ▸ hmarker)
    obtain ⟨bare, hbare⟩ := Option.isSome_iff_exists.mp (h.nodes other hother hunmarked)
    obtain ⟨now, hnow, _⟩ := hbypass.exists_after hne hbare
    rw [hnow]
    rfl
  flow node index port origin hunmarked hport horigin := by
    obtain ⟨now, hnow, hpath⟩ := h.flow node index port origin hunmarked hport horigin
    have hne : node ≠ id := fun heq => hunmarked (heq ▸ hmarker)
    exact ⟨PortRef.redirect id source now, by rw [hbypass.inputSource node hne, hnow]; rfl,
      hpath.bypass hmarker hsource hbypass⟩

end Faithful

end Graph

/-! ### Edits that add -/

variable {imported : Graph} {id : NodeId} {port source destination : PortRef}

theorem faithful_addNode (himported : imported.Coherent) {desc : NodeDesc}
    (htype : desc.opType ≠ "FakeOutput") : Keeps imported.Faithful (addNode desc) :=
  fun _ h => h.insertNode himported htype

theorem faithful_connect : Keeps imported.Faithful (connect source destination) :=
  atomic_connect.keeps fun graph _ result h hrun => by
    obtain ⟨hcheck, _, rfl⟩ := run_connect_eq_ok.mp hrun
    exact h.insertConnection hcheck

theorem faithful_addInputPort : Keeps imported.Faithful (addInputPort id) :=
  atomic_addInputPort.keeps fun graph _ result h hrun => by
    obtain ⟨_, _, _, rfl⟩ := run_addInputPort_eq_ok.mp hrun
    exact h.modifyNode .withInput bare_withInput fun _ htype => htype

theorem faithful_addOutputPort : Keeps imported.Faithful (addOutputPort id) :=
  atomic_addOutputPort.keeps fun graph _ result h hrun => by
    obtain ⟨_, _, _, rfl⟩ := run_addOutputPort_eq_ok.mp hrun
    exact h.modifyNode .withOutput bare_withOutput fun _ htype => htype

theorem faithful_annotate (info : TensorInfo) : Keeps imported.Faithful (annotate port info) :=
  atomic_annotate.keeps fun graph _ result h hrun => by
    obtain ⟨_, _, _, rfl⟩ := run_annotate_eq_ok.mp hrun
    exact h.modifyNode (.annotate port.index info)
      (g := fun node =>
        { node with outputs := node.outputs.modify port.index ({ · with info := some info }) })
      (fun node => node.bare_annotate port.index info) fun _ htype => htype

theorem faithful_removeAttributes (names : List String) :
    Keeps imported.Faithful (removeAttributes id names) :=
  atomic_removeAttributes.keeps fun graph _ result h hrun => by
    obtain ⟨_, rfl⟩ := run_removeAttributes_eq_ok.mp hrun
    exact h.modifyNode (.attributes (·.eraseAll names))
      (g := fun node => { node with attributes := node.attributes.eraseAll names }) (fun _ => rfl)
      fun _ htype => htype

/-- A type is set that the node may have. -/
theorem faithful_setOpType {opType : String} (htype : imported.MarkerType id opType) :
    Keeps imported.Faithful (setOpType id opType) :=
  atomic_setOpType.keeps fun graph _ result h hrun => by
    obtain ⟨_, rfl⟩ := run_setOpType_eq_ok.mp hrun
    exact h.modifyNode (.setOpType opType) (g := ({ · with opType })) (fun _ => rfl)
      fun _ _ => htype

/-- All additions keep what is read. -/
theorem additions_faithful (himported : imported.Coherent) : Additions imported.Faithful where
  addNode _ htype := faithful_addNode himported htype
  addInputPort _ := faithful_addInputPort
  addOutputPort _ := faithful_addOutputPort
  connect _ _ := faithful_connect
  annotate _ info := faithful_annotate info
  removeAttributes _ names := faithful_removeAttributes names

/-! ### Passes and pipelines -/

/-- A resolved marker passes its tensor on to whatever read it. -/
theorem faithful_resolveMarker (found : Match) :
    Ensures (fun graph => imported.Faithful graph ∧
      Pass.outputMarkers.pattern.stillMatches graph found = true) (resolveMarker found)
      fun _ => imported.Faithful := by
  rintro graph value result ⟨h, hmatches⟩ hrun
  have hchanges := (changes_resolveMarker found h.coherent).ensures graph value result .refl hrun
  obtain ⟨id, marker, source, producer, hid, hn, hsource, _, hresolved⟩ :=
    resolved_of_run h.coherent hrun
  have hmarker : imported.IsMarker id := by
    obtain ⟨node, hnode, haccepts⟩ :=
      Pattern.accepted_of_stillMatches (Pattern.isSingle_single _ _) hmatches hid
    exact (h.markers id node.bare (Graph.bare?_of_node? hnode)).1
      (Pattern.opType_of_accepts rfl haccepts)
  cases hresolved with
  | bypassed _ bypassed =>
    exact h.bypass hmarker hsource (h.coherent.changes hchanges)
      (Graph.Later.of_changes hchanges).nextNode bypassed
  | identity _ changed =>
    subst changed
    exact h.modifyNode (.setOpType "Identity") (g := ({ · with opType := "Identity" }))
      (fun _ => rfl) fun _ _ => ⟨fun heq => absurd heq (by simp), fun _ => .inr rfl⟩

/-- A node of a type that no marker has may get any other such type. -/
theorem markerType_of_accepts {graph : Graph} {found : Match} {pattern : Pattern}
    {node : NodePattern} {label old new : String} (h : imported.Faithful graph)
    (hsingle : pattern.IsSingle node) (htype : node.opType = some old)
    (hold : old ≠ "FakeOutput" ∧ old ≠ "Identity") (hnew : new ≠ "FakeOutput")
    (hmatches : pattern.stillMatches graph found = true) (hid : found.require label = .ok id) :
    imported.MarkerType id new := by
  obtain ⟨bound, hbound, haccepts⟩ := Pattern.accepted_of_stillMatches hsingle hmatches hid
  have hbare : graph.bare? id = some bound.bare := Graph.bare?_of_node? hbound
  have hmarkers := (h.markers id bound.bare hbare).2
  change _ → bound.opType = _ ∨ bound.opType = _ at hmarkers
  rw [Pattern.opType_of_accepts htype haccepts] at hmarkers
  refine ⟨fun heq => absurd heq hnew, fun hmarker => ?_⟩
  rcases hmarkers hmarker with heq | heq
  · exact absurd heq hold.1
  · exact absurd heq hold.2

/-- Standard passes keep what is read. -/
theorem faithful_run_pass {pass : Pass} (himported : imported.Coherent) (hpass : pass.Standard)
    (verify : Bool) : Ensures imported.Faithful (pass.run verify) fun _ => imported.Faithful := by
  have hadd := additions_faithful himported
  refine ensures_run_pass verify fun found => ?_
  obtain ⟨builtIn, hmem, hpattern, happly⟩ := hpass.exists_mem
  rw [hpattern, happly]
  simp only [PassRegistry.standard, List.mem_cons, List.not_mem_nil, or_false] at hmem
  rcases hmem with rfl | rfl | rfl | rfl
  · exact faithful_resolveMarker found
  · rintro graph value result ⟨h, hmatches⟩ hrun
    have hsingle := Pattern.isSingle_constrain (Pattern.isSingle_single "pool" "Pooling")
      (.equals "pool_method" (.str "max"))
    exact (hadd.canonizeMaxPool fun id hid => faithful_setOpType
      (markerType_of_accepts h hsingle rfl (by simp) (by simp) hmatches hid)).ensures
        graph value result h hrun
  · rintro graph value result ⟨h, hmatches⟩ hrun
    have hsingle := Pattern.isSingle_constrain (Pattern.isSingle_single "pool" "Pooling")
      (.equals "pool_method" (.str "avg"))
    exact (hadd.canonizeAvgPool fun id hid => faithful_setOpType
      (markerType_of_accepts h hsingle rfl (by simp) (by simp) hmatches hid)).ensures
        graph value result h hrun
  · rintro graph value result ⟨h, hmatches⟩ hrun
    have hsingle := Pattern.isSingle_single "gather" "AttributedGather"
    exact (hadd.canonizeGather fun id hid => faithful_setOpType
      (markerType_of_accepts h hsingle rfl (by simp) (by simp) hmatches hid)).ensures
        graph value result h hrun

/-- A stage that may be left out ensures what it keeps. -/
theorem ensures_stage {P : Graph → Prop} {α : Type} {edit : Edit α} (chosen : Bool)
    (h : Ensures P edit fun _ => P) : Ensures P (Pipeline.stage chosen edit) fun _ => P := by
  unfold Pipeline.stage
  cases chosen with
  | true => exact ensures_bind h fun _ => ensures_pure fun _ hP => hP
  | false => exact ensures_pure fun _ hP => hP

/-- A pipeline of standard passes keeps what is read. -/
theorem faithful_canonicalize {pipeline : Pipeline} (himported : imported.Coherent)
    (hpasses : ∀ pass ∈ pipeline.passes, pass.Standard) :
    Ensures imported.Faithful pipeline.canonicalize fun _ => imported.Faithful := by
  refine ensures_bind (ensures_stage _
    ((additions_faithful himported).inferGraph pipeline.inference).ensures) fun _ => ?_
  refine ensures_bind (ensures_stage _ (ensures_run_passes _ fun pass hmem =>
    faithful_run_pass himported (hpasses pass hmem) _)) fun _ => ?_
  refine ensures_bind (ensures_stage _ (ensures_check fun _ _ h _ => h)) fun _ => ?_
  exact ensures_pure fun _ h => h

/-- A run of a pipeline over the standard registries, whatever stages and passes it leaves out, keeps
what is read after the import. -/
theorem faithful_of_pipeline {config : PipelineConfig} {pipeline : Pipeline} {schedule : List String}
    {model : SourceModel} {final : Graph} {report : PipelineReport}
    (hbuild : ({ config } : Pipeline).build = .ok (pipeline, schedule))
    (hrun : pipeline.run model = .ok (final, report)) :
    ∃ imported, model.toGraph .standard = .ok imported ∧ imported.Faithful final := by
  obtain ⟨passes, hpasses, hrest⟩ := Except.bind_eq_ok_iff.mp hbuild
  obtain ⟨order, _, hpair⟩ := Except.bind_eq_ok_iff.mp hrest
  cases hpair
  obtain ⟨imported, himport, hstages⟩ := Except.bind_eq_ok_iff.mp hrun
  change model.toGraph .standard = .ok imported at himport
  have hcoherent := Graph.Coherent.empty.changes (SourceModel.changes_toGraph himport)
  have hkept : Ensures imported.Faithful ({ config, passes } : Pipeline).canonicalize
      fun _ => imported.Faithful := faithful_canonicalize hcoherent
    (PassRegistry.standard_of_disableAll (fun _ => PassRegistry.standard_of_mem) hpasses)
  refine ⟨imported, himport, ?_⟩
  cases hcanonicalize : (({ config, passes } : Pipeline).canonicalize).run imported with
  | error error left =>
    rw [hcanonicalize] at hstages
    cases hstages
  | ok account left =>
    rw [hcanonicalize] at hstages
    cases hstages
    exact hkept imported account final (.refl hcoherent) hcanonicalize

/-- In an imported graph every path back through markers comes to an end. -/
theorem SourceModel.Laid.exists_origin {model : SourceModel} {extracted : List Extracted}
    {names : SourceNames} (h : Laid model extracted model.outputs names imported) (port : PortRef) :
    ∃ origin, imported.Origin imported.IsMarker port origin := by
  obtain ⟨bound, hbound⟩ : ∃ bound, port.node.index < bound := ⟨_, Nat.lt_succ_self _⟩
  induction bound generalizing port with
  | zero => exact absurd hbound (Nat.not_lt_zero _)
  | succ bound ih =>
    by_cases hmarker : imported.IsMarker port.node
    · obtain ⟨node, hn, htype⟩ := hmarker
      obtain ⟨position, hposition, hid⟩ :=
        h.marked port.node node.bare (Graph.bare?_of_node? hn) htype
      obtain ⟨source, _, hbefore, hfeed⟩ :=
        (h.placed position _ (List.getElem?_eq_getElem hposition)).requested
      rw [← hid] at hbefore hfeed
      obtain ⟨origin, horigin⟩ := ih (.output source model.outputs[position].sourcePort)
        (Nat.lt_of_lt_of_le hbefore (Nat.le_of_lt_succ hbound))
      exact ⟨origin, .through ⟨node, hn, htype⟩ hfeed horigin⟩
    · exact ⟨port, .here hmarker⟩

/-- A pipeline over the standard registries, whatever stages and passes it leaves out, lets every
node other than a marker read the tensors that it read after the import, and lets every graph
output read the tensor that was requested. -/
theorem flow_kept_by_pipeline {config : PipelineConfig} {pipeline : Pipeline}
    {schedule : List String} {model : SourceModel} {final : Graph} {report : PipelineReport}
    (hbuild : ({ config } : Pipeline).build = .ok (pipeline, schedule))
    (hrun : pipeline.run model = .ok (final, report)) :
    ∃ imported, model.toGraph .standard = .ok imported ∧
      (∀ node index source, ¬ imported.IsMarker node →
        imported.inputSource? node index = some source →
          (final.node? node).isSome = true ∧
            ∃ now origin, final.inputSource? node index = some now ∧
              imported.Origin imported.IsMarker source origin ∧
                final.Origin imported.IsMarker now origin) ∧
      (∀ position output, model.outputs[position]? = some output →
        ∃ source now origin, model.nodeOf? output.source = some source ∧
          final.inputSource? (model.sink position) 0 = some now ∧
            imported.Origin imported.IsMarker (.output source output.sourcePort) origin ∧
              final.Origin imported.IsMarker now origin) ∧
      ∀ id node, imported.IsMarker id → final.node? id = some node →
        node.opType = "FakeOutput" ∨ node.opType = "Identity" := by
  obtain ⟨imported, himport, hfaithful⟩ := faithful_of_pipeline hbuild hrun
  obtain ⟨extracted, names, _, hlaid⟩ :=
    SourceModel.laid_of_toGraph himport ExtractorRegistry.leavesMarkers_standard
  have hnow : ∀ node index source, ¬ imported.IsMarker node →
      imported.inputSource? node index = some source →
        ∃ now origin, final.inputSource? node index = some now ∧
          imported.Origin imported.IsMarker source origin ∧
            final.Origin imported.IsMarker now origin :=
    fun node index source hunmarked hsource => by
      obtain ⟨origin, horigin⟩ := hlaid.exists_origin source
      obtain ⟨now, hnow, hpath⟩ := hfaithful.flow node index source origin hunmarked hsource horigin
      exact ⟨now, origin, hnow, horigin, hpath⟩
  refine ⟨imported, himport, fun node index source hunmarked hsource => ⟨?_, ?_⟩,
    fun position output houtput => ?_, fun id node hmarker hn => ?_⟩
  · obtain ⟨now, _, hfed, _⟩ := hnow node index source hunmarked hsource
    exact Graph.node?_isSome_of_inputSource? hfed
  · exact hnow node index source hunmarked hsource
  · have hplaced := hlaid.placed position output houtput
    obtain ⟨source, hsource, _, hrequested⟩ := hplaced.requested
    obtain ⟨bare, hbare, htype, _⟩ := hplaced.marker
    obtain ⟨marker, hmarker, rfl⟩ := Option.map_eq_some_iff.mp hbare
    have hunmarked : ¬ imported.IsMarker (model.sink position) := fun ⟨node, hn, hnode⟩ => by
      have hsink := hplaced.sink
      rw [Graph.bare?, hn] at hsink
      exact absurd (hnode.symm.trans (Option.some.inj hsink)) (by simp)
    obtain ⟨now, origin, hfed, horigin, hpath⟩ := hnow _ _ _ hunmarked hplaced.delivered
    refine ⟨source, now, origin, ?_, hfed, ?_, hpath⟩
    · rw [SourceModel.nodeOf?, SourceModel.directory, ← hlaid.entries]
      exact hsource
    · cases horigin with
      | here hnot => exact absurd ⟨marker, hmarker, htype⟩ hnot
      | through _ feed rest =>
        change imported.inputSource? (model.marker position) 0 = _ at feed
        rw [hrequested, Option.some.injEq] at feed
        rw [feed]
        exact rest
  · exact (hfaithful.markers id node.bare (Graph.bare?_of_node? hn)).2 hmarker

/-- Both requests of a tensor that is requested twice are served. -/
theorem flow_kept_by_pipeline_requestedTwice :
    ∃ pipeline schedule final report imported now origin,
      ({} : Pipeline).build = .ok (pipeline, schedule) ∧
        pipeline.run .requestedTwice = .ok (final, report) ∧
          final.inputSource? (SourceModel.requestedTwice.sink 1) 0 = some now ∧
            Graph.Origin imported imported.IsMarker (.output ⟨1⟩ 0) origin ∧
              final.Origin imported.IsMarker now origin := by
  have hok : ((({} : Pipeline).build.bind fun built =>
      built.1.run .requestedTwice).toOption).isSome = true := by decide +kernel
  cases hbuild : ({} : Pipeline).build with
  | error error =>
    rw [hbuild] at hok
    cases hok
  | ok built =>
    obtain ⟨pipeline, schedule⟩ := built
    cases hrun : pipeline.run .requestedTwice with
    | error error =>
      rw [hbuild] at hok
      simp [Except.bind, hrun, Except.toOption] at hok
    | ok outcome =>
      obtain ⟨final, report⟩ := outcome
      obtain ⟨imported, _, _, houtputs, _⟩ := flow_kept_by_pipeline hbuild hrun
      obtain ⟨source, now, origin, hsource, hfed, horigin, hpath⟩ := houtputs 1 _ rfl
      cases hsource
      exact ⟨pipeline, schedule, final, report, imported, now, origin, rfl, hrun, hfed, horigin, hpath⟩

end OpGraph
