import OpGraph.Proofs.MarkerNames
import OpGraph.Proofs.Pass.Failure
import OpGraph.Proofs.Pass.MarkerBypass

/-!
# How the resolution of markers fails

While a marker is bypassed it bears a temporary name, so that the producer can take over its own.
If another node bears the temporary name already, the marker cannot be renamed and the run ends.
Nothing else can go wrong with an imported marker, since nothing holds it: it has one input port,
and another node feeds it. Names only move between nodes, so a temporary name that is taken was
taken from the start.
-/

namespace OpGraph

open Edit

variable {graph result : Graph} {id : NodeId} {marker : Node} {source : PortRef} {error : GraphError}

/-- A marker with one input that another node feeds can be resolved unless its temporary name is
taken. -/
theorem taken_of_run_resolveMarker (h : graph.Coherent) (hn : graph.node? id = some marker)
    (hsource : graph.inputSource? id 0 = some source)
    (hinput : ∀ index port, graph.inputSource? id index = some port → index = 0)
    (hother : graph.UsesOneOutput source.node → source.node ≠ id)
    (hrun : (resolveMarker ⟨[("fake", id)]⟩).run graph = .error error result) :
    (graph.idOf? (temporaryName marker.name)).isSome = true ∧
      error = .internal (.nameTaken marker.name (temporaryName marker.name)) := by
  rw [Graph.inputSource?_eq] at hsource
  obtain ⟨feed, hfeed, hstart⟩ := Option.bind_eq_some_iff.mp hsource
  obtain ⟨hsingle, hunplugged, hhalted⟩ := halted_of_run_resolveMarker h hn hfeed hstart hrun
  cases hhalted with
  | taken htaken herror _ => exact ⟨htaken, herror⟩
  | held now _ hnow hattached _ _ =>
    rcases (hunplugged.attached_iff_held h hfeed hstart hnow).mp hattached with
      ⟨index, hindex, hslot⟩ | ⟨hself, _⟩
    · obtain ⟨connection, hslot⟩ := Option.isSome_iff_exists.mp hslot
      obtain ⟨port, hport⟩ := Option.isSome_iff_exists.mp (h.isSome_inputSource? hslot)
      exact absurd (hinput index port hport) hindex
    · exact absurd hself (hother hsingle)

/-! ### The whole run -/

namespace Graph

variable {imported : Graph} {bound : Nat} {verify : Bool} {stats : PassStats}

/-- The error says that a marker could not be renamed, since its temporary name was taken. -/
def TemporaryTaken (imported : Graph) (error : GraphError) : Prop :=
  ∃ id marker, imported.node? id = some marker ∧ marker.opType = "FakeOutput" ∧
    (imported.idOf? (temporaryName marker.name)).isSome = true ∧
      error = .internal (.nameTaken marker.name (temporaryName marker.name))

namespace Transferred

/-- Names move between nodes, and no other names come up. -/
theorem isSome_idOf? (h : imported.Transferred bound graph) (himported : imported.Marked)
    {name : String} (hname : (graph.idOf? name).isSome = true) :
    (imported.idOf? name).isSome = true := by
  have hsome : ∀ id, imported.nameOf? id = some name → (imported.idOf? name).isSome = true :=
    fun id hid => by
      rw [(himported.coherent.registered.named name id).mpr hid]
      rfl
  obtain ⟨id, hid⟩ := Option.isSome_iff_exists.mp hname
  rw [h.coherent.registered.named] at hid
  by_cases hserved : ∃ marker, imported.Done bound marker ∧ imported.Holder marker id
  · obtain ⟨marker, hmarker, hholder⟩ := hserved
    obtain ⟨last, hlast, hholds, hmax⟩ := exists_last hmarker hholder
    rw [h.last id last hlast hholds hmax] at hid
    exact hsome last hid
  · push Not at hserved
    have hstays : imported.Stays bound id := by
      refine h.stays_of_isSome ?_
      obtain ⟨node, hn, _⟩ := Option.map_eq_some_iff.mp hid
      rw [hn]
      rfl
    rw [h.own id hstays hserved] at hid
    exact hsome id hid

/-- The turn of one marker fails only if its temporary name is taken. -/
theorem taken_of_turn {marker : NodeId} (h : imported.Transferred marker.index graph)
    (himported : imported.Marked) (hmarker : imported.IsMarker marker)
    (hrun : (Pass.outputMarkers.applyTo verify stats ⟨[("fake", marker)]⟩).run graph =
      .error error result) : imported.TemporaryTaken error := by
  have hstandard : Pass.outputMarkers.Standard :=
    PassRegistry.standard_of_mem (by simp [PassRegistry.standard])
  obtain ⟨_, happly⟩ := hstandard.run_apply_eq_error h.coherent hrun
  obtain ⟨node, hn, htype⟩ := hmarker
  have hmarker : imported.IsMarker marker := ⟨node, hn, htype⟩
  obtain ⟨bare, hthere, _⟩ := h.stays marker _ (Graph.bare?_of_node? hn) stays_self
  obtain ⟨now, hnow, _⟩ := Option.map_eq_some_iff.mp hthere
  have hname : now.name = node.name := by
    have hown := h.own marker stays_self fun other hother => not_holder_of_done himported hmarker hother
    rw [nameOf?, hnow, nameOf?, hn] at hown
    exact Option.some.inj hown
  obtain ⟨source, hsource⟩ := h.exists_source himported hmarker
  obtain ⟨htaken, herror⟩ := taken_of_run_resolveMarker h.coherent hnow hsource
    (h.index_eq_zero himported hmarker)
    (fun hone => ((h.holder_of_source himported hmarker hsource).1 hone).2) happly
  rw [hname] at htaken herror
  exact ⟨marker, node, hn, htype, h.isSome_idOf? himported htaken, herror⟩

/-- The turns of all markers that are left fail only if a temporary name is taken. -/
theorem taken_of_turns {rest : List NodeId} (h : imported.Transferred bound graph)
    (himported : imported.Marked)
    (hrest : ∀ id, id ∈ rest ↔ imported.IsMarker id ∧ bound ≤ id.index)
    (hsorted : rest.Pairwise fun first second => first.index < second.index)
    (hrun : ((rest.map fun id => (⟨[("fake", id)]⟩ : Match)).foldlM
      (Pass.outputMarkers.applyTo verify) stats).run graph = .error error result) :
    imported.TemporaryTaken error := by
  induction rest generalizing bound graph stats with
  | nil => cases hrun
  | cons marker tail ih =>
    obtain ⟨hmarker, hready, htail⟩ := h.ready hrest hsorted
    rw [List.map_cons, List.foldlM_cons] at hrun
    rcases run_bind_eq_error.mp hrun with hturn | ⟨first, middle, hturn, hrun⟩
    · exact hready.taken_of_turn himported hmarker hturn
    · exact ih (hready.turn himported hmarker hturn) htail (List.pairwise_cons.mp hsorted).2 hrun

end Transferred

/-- The resolution of all markers fails only if a temporary name is taken. -/
theorem Marked.failsOnly_run (himported : imported.Marked) (verify : Bool) :
    FailsOnly (· = imported) (Pass.outputMarkers.run verify) imported.TemporaryTaken := by
  rintro graph error result rfl hrun
  obtain ⟨markers, _, hmem, hsorted, hturns⟩ := himported.coherent.exists_markers verify
  rw [hturns] at hrun
  refine (Transferred.start himported).taken_of_turns himported (fun id => ?_) hsorted hrun
  rw [hmem id]
  exact ⟨fun hid => ⟨hid, Nat.zero_le _⟩, fun h => h.1⟩

end Graph

end OpGraph
