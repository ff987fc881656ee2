import OpGraph.Proofs.Infer.Frame
import OpGraph.Proofs.Pass.OutputMarker
import OpGraph.Proofs.Pass.Run

/-!
# Resolved markers leave settled graphs behind

A marker said the same of its outputs as its producer says of the port that feeds it. So nobody
learns anything else when the marker is bypassed, and an identity works like a marker.
-/

namespace OpGraph

open Edit

namespace Graph

variable {graph result : Graph} {id : NodeId} {marker bare : Node} {source port : PortRef}

/-! ### Markers -/

/-- An elementwise node says of its outputs what is known of its first input. -/
theorem Settled.outputInfo?_elementwise (h : graph.Settled)
    (hbare : graph.bare? id = some bare)
    (hf : InferRegistry.standard.get? bare.opType = some Infer.elementwise)
    (hsource : graph.inputSource? id 0 = some source) :
    ∃ info : TensorInfo, graph.outputInfo? source = some info ∧
      ∀ index, index < bare.outputs.length → graph.outputInfo? (.output id index) = some info := by
  obtain ⟨inputs, outputs, hreceives, hinfers, hinfo⟩ := h.inferred id bare hbare
  obtain ⟨input, hinput, _, rfl⟩ := Infer.elementwise_eq_ok_iff.mp (hinfers.eq_ok hf)
  have hknown := hreceives.2 0 (lt_of_inputSource? hsource hbare)
  rw [← List.head?_eq_getElem?, hinput, known?, hsource] at hknown
  obtain ⟨hsaid, _⟩ := Option.filter_eq_some_iff.mp hknown
  refine ⟨input, hsaid, fun index hindex => ?_⟩
  have hat := congrArg (·[index]?) hinfo
  simp only [List.getElem?_map, List.getElem?_eq_getElem hindex, Infer.replicate,
    List.getElem?_replicate, hindex, if_true, Option.map_some, Option.some.injEq] at hat
  rw [outputInfo?_output hbare, List.getElem?_eq_getElem hindex]
  exact hat

/-- A cycle after a bypass would have been one before. -/
theorem Acyclic.bypassed {name : String} (h : graph.Acyclic)
    (hsource : graph.inputSource? id 0 = some source) (hbypassed : Bypassed graph id name source result) : result.Acyclic := by
  obtain ⟨rank, hrank⟩ := h
  have hbelow : rank source.node < rank id := hrank id source.node ⟨0, source, hsource, rfl⟩
  refine ⟨rank, fun other read hreads => ?_⟩
  obtain ⟨index, now, hnow, rfl⟩ := hreads
  rw [hbypassed.inputSource other (hbypassed.ne_of_inputSource? hnow)] at hnow
  obtain ⟨old, hold, rfl⟩ := Option.map_eq_some_iff.mp hnow
  have hlt : rank old.node < rank other := hrank other old.node ⟨index, old, hold, rfl⟩
  unfold PortRef.redirect
  split
  · rename_i hnode
    rw [hnode] at hlt
    exact Nat.lt_trans hbelow hlt
  · exact hlt

/-- Whoever read the marker learns the same from its source. -/
theorem Settled.known?_bypassed {name : String} (h : graph.Settled) (hn : graph.node? id = some marker)
    (hf : InferRegistry.standard.get? marker.opType = some Infer.elementwise)
    (hsource : graph.inputSource? id 0 = some source)
    (hbypassed : Bypassed graph id name source result) {other : NodeId} (hother : other ≠ id)
    (index : Nat) : result.known? other index = graph.known? other index := by
  have hmarker := bare?_of_node? hn
  obtain ⟨info, hinfo, hsaid⟩ := h.outputInfo?_elementwise hmarker hf hsource
  unfold Graph.known?
  rw [hbypassed.inputSource other hother index]
  cases hfeed : graph.inputSource? other index with
  | none => rfl
  | some port =>
    simp only [Option.map_some, PortRef.redirect]
    by_cases hnode : port.node = id
    · have hdir := h.coherent.direction_of_inputSource? hfeed
      obtain ⟨own, hown, hindex⟩ := hasPort_iff_bare?.mp (h.coherent.hasPort_of_inputSource? hfeed)
      rw [hnode, hmarker, Option.some.injEq] at hown
      rw [hdir, ← hown] at hindex
      have hport := hsaid port.index hindex
      rw [← hnode, ← PortRef.eq_output hdir] at hport
      have hself : source.node ≠ id := fun heq => h.acyclic.not_reads_self id ⟨0, source, hsource, heq⟩
      rw [if_pos hnode, hbypassed.outputInfo? hself, hinfo, hport]
    · rw [if_neg hnode, hbypassed.outputInfo? hnode]

/-- Bypassing a marker leaves a settled graph behind. -/
theorem Settled.bypassed {name : String} (h : graph.Settled) (hn : graph.node? id = some marker)
    (hf : InferRegistry.standard.get? marker.opType = some Infer.elementwise)
    (hsource : graph.inputSource? id 0 = some source) (hresult : result.Coherent)
    (hbypassed : Bypassed graph id name source result) : result.Settled := by
  refine ⟨hresult, h.acyclic.bypassed hsource hbypassed, fun other now hnow => ?_,
    fun other now hnow htype => ?_⟩
  · have hknown := h.known?_bypassed hn hf hsource hbypassed (hbypassed.ne_of_bare? hnow)
    refine (h.inferred other).congr (fun now hnow => ?_) hknown now hnow
    obtain ⟨bare, hbare, hsame⟩ := hbypassed.exists_before hnow
    rw [hsame]
    exact ⟨bare, hbare, rfl, rfl, rfl, rfl⟩
  · obtain ⟨bare, hbare, hsame⟩ := hbypassed.exists_before hnow
    rw [hsame] at htype ⊢
    exact h.pooling other bare hbare htype

end Graph

/-- Resolving markers leaves settled graphs behind. -/
theorem ensures_settled_resolveMarker (found : Match) :
    Ensures (fun graph => graph.Settled ∧ Pass.outputMarkers.pattern.stillMatches graph found = true)
      (resolveMarker found) fun _ => Graph.Settled := by
  rintro graph value result ⟨h, hmatches⟩ hrun
  have hresult : result.Coherent := h.coherent.changes
    ((changes_resolveMarker found h.coherent).ensures graph _ _ .refl hrun)
  obtain ⟨id, marker, source, producer, hid, hn, hsource, _, hresolved⟩ :=
    resolved_of_run h.coherent hrun
  have htype : graph.OfType id "FakeOutput" :=
    Pattern.ofType_of_stillMatches (Pattern.isSingle_single "fake" "FakeOutput") rfl hmatches hid
  cases hresolved with
  | bypassed _ hbypassed =>
    have hmarker : marker.bare.opType = "FakeOutput" := htype marker.bare (Graph.bare?_of_node? hn)
    change marker.opType = "FakeOutput" at hmarker
    exact h.bypassed hn (by rw [hmarker]; rfl) hsource hresult hbypassed
  | identity _ hchanged =>
    rw [hchanged]
    exact h.setOpType htype rfl (by decide)

end OpGraph
