import OpGraph.Proofs.Pass.Rewritten

/-!
# Standard passes clear the graph of their matches

A rewritten node is matched by no standard pass any more, and no other node begins to be matched.
So the nodes at which standard passes match become fewer with every step, and a run of a pass,
which takes all its matches in turn, leaves none behind. On a graph without a match of a pass
the pass does nothing.
-/

namespace OpGraph

open Edit

variable {start graph middle result : Graph} {pass : Pass} {found : Match} {id : NodeId}

/-! ### Matches of standard passes -/

/-- Types of the nodes for which standard passes look. -/
def rawTypes : List String := ["FakeOutput", "Pooling", "AttributedGather"]

/-- A standard pass looks for single nodes of one such type. -/
theorem Pass.Standard.exists_isSingle (h : pass.Standard) :
    ∃ node opType, pass.pattern.IsSingle node ∧ node.opType = some opType ∧ opType ∈ rawTypes := by
  obtain ⟨builtIn, hmem, hpattern, _⟩ := h.exists_mem
  rw [hpattern]
  simp only [PassRegistry.standard, List.mem_cons, List.not_mem_nil, or_false] at hmem
  rcases hmem with rfl | rfl | rfl | rfl
  · exact ⟨_, _, Pattern.isSingle_single "fake" "FakeOutput", rfl, by simp [rawTypes]⟩
  · exact ⟨_, _, Pattern.isSingle_constrain (Pattern.isSingle_single "pool" "Pooling") _, rfl,
      by simp [rawTypes]⟩
  · exact ⟨_, _, Pattern.isSingle_constrain (Pattern.isSingle_single "pool" "Pooling") _, rfl,
      by simp [rawTypes]⟩
  · exact ⟨_, _, Pattern.isSingle_single "gather" "AttributedGather", rfl, by simp [rawTypes]⟩

/-- Conditions of a pattern look at type and attributes alone. -/
theorem NodePattern.accepts_congr (pattern : NodePattern) {node other : Node}
    (htype : node.opType = other.opType) (hattributes : node.attributes = other.attributes) :
    pattern.accepts node = pattern.accepts other := by
  unfold accepts
  rw [htype, hattributes]

/-- The matches of a pattern of one node are those that hold and bear its label. -/
theorem Pattern.mem_findAll_of_isSingle {pattern : Pattern} {node : NodePattern}
    (h : pattern.IsSingle node) :
    found ∈ pattern.findAll graph ↔ ∃ id bound, found = ⟨[(node.label, id)]⟩ ∧
      graph.node? id = some bound ∧ node.accepts bound = true := by
  rw [findAll_of_isSingle h]
  simp only [candidates, List.mem_map, List.mem_filter, Prod.exists, exists_and_right, exists_eq_right,
    Graph.node?, OrderedMap.get?_eq_some_iff]
  constructor
  · rintro ⟨id, ⟨bound, hbound⟩, rfl⟩
    exact ⟨id, bound, rfl, hbound⟩
  · rintro ⟨id, bound, rfl, hbound⟩
    exact ⟨id, ⟨bound, hbound⟩, rfl⟩

namespace Graph

/-- The pass matches nowhere. -/
def Clear (graph : Graph) (pass : Pass) : Prop := pass.pattern.findAll graph = []

/-- Where a pass of single nodes matches nowhere its condition holds of no node. -/
theorem Clear.accepts_eq_false (h : graph.Clear pass) {node : NodePattern}
    (hsingle : pass.pattern.IsSingle node) {bound : Node} (hbound : graph.node? id = some bound) :
    node.accepts bound = false := by
  rw [Bool.eq_false_iff]
  intro haccepts
  have hmem : (⟨[(node.label, id)]⟩ : Match) ∈ pass.pattern.findAll graph :=
    (Pattern.mem_findAll_of_isSingle hsingle).mpr ⟨id, bound, rfl, hbound, haccepts⟩
  rw [h] at hmem
  exact absurd hmem List.not_mem_nil

/-- Where a standard pass matches nowhere no match of it holds, whatever its label. -/
theorem Clear.stillMatches (h : graph.Clear pass) (hpass : pass.Standard) (found : Match) :
    pass.pattern.stillMatches graph found = false := by
  obtain ⟨node, _, hsingle, _⟩ := hpass.exists_isSingle
  rw [Bool.eq_false_iff]
  intro hmatches
  obtain ⟨_, id, bound, _, hbound, haccepts⟩ := (Pattern.stillMatches_of_isSingle hsingle).mp hmatches
  rw [h.accepts_eq_false hsingle hbound] at haccepts
  cases haccepts

/-- Every node for which standard passes look was there before with the same type and attributes,
and nothing feeds it where nothing fed it before. -/
def Narrows (start graph : Graph) : Prop :=
  ∀ id now, graph.bare? id = some now → now.opType ∈ rawTypes →
    ∃ bare, start.bare? id = some bare ∧ now.opType = bare.opType ∧ now.attributes = bare.attributes ∧
      ∀ index, (graph.inputSource? id index).isSome = true →
        (start.inputSource? id index).isSome = true

namespace Narrows

theorem refl (graph : Graph) : graph.Narrows graph :=
  fun _ now hnow _ => ⟨now, hnow, rfl, rfl, fun _ hfed => hfed⟩

theorem trans (h : start.Narrows middle) (h' : middle.Narrows graph) : start.Narrows graph := by
  intro id now hnow hraw
  obtain ⟨between, hbetween, htype, hattributes, hfed⟩ := h' id now hnow hraw
  obtain ⟨bare, hbare, htypeBefore, hattributesBefore, hfedBefore⟩ :=
    h id between hbetween (htype ▸ hraw)
  exact ⟨bare, hbare, htype.trans htypeBefore, hattributes.trans hattributesBefore,
    fun index hindex => hfedBefore index (hfed index hindex)⟩

/-- A match of a standard pass that holds held before. -/
theorem stillMatches (h : start.Narrows graph) (hpass : pass.Standard)
    (hmatches : pass.pattern.stillMatches graph found = true) :
    pass.pattern.stillMatches start found = true := by
  obtain ⟨node, opType, hsingle, htype, hraw⟩ := hpass.exists_isSingle
  rw [Pattern.stillMatches_of_isSingle hsingle] at hmatches ⊢
  obtain ⟨label, id, bound, rfl, hbound, haccepts⟩ := hmatches
  have hown : bound.opType ∈ rawTypes := by
    rw [Pattern.opType_of_accepts htype haccepts]
    exact hraw
  obtain ⟨bare, hbare, hsame, hattributes, _⟩ := h id bound.bare (bare?_of_node? hbound) hown
  obtain ⟨before, hbefore, rfl⟩ := Option.map_eq_some_iff.mp hbare
  refine ⟨label, id, before, rfl, hbefore, ?_⟩
  rw [← haccepts]
  exact (node.accepts_congr hsame hattributes).symm

/-- A standard pass that matched nowhere matches nowhere still. -/
theorem clear (h : start.Narrows graph) (hpass : pass.Standard) (hclear : start.Clear pass) :
    graph.Clear pass := by
  obtain ⟨node, _, hsingle, _⟩ := hpass.exists_isSingle
  refine List.eq_nil_iff_forall_not_mem.mpr fun found hmem => ?_
  obtain ⟨id, bound, rfl, hbound, haccepts⟩ := (Pattern.mem_findAll_of_isSingle hsingle).mp hmem
  have hmatches : pass.pattern.stillMatches graph ⟨[(node.label, id)]⟩ = true :=
    (Pattern.stillMatches_of_isSingle hsingle).mpr ⟨_, id, bound, rfl, hbound, haccepts⟩
  have hbefore := h.stillMatches hpass hmatches
  rw [hclear.stillMatches hpass] at hbefore
  cases hbefore

end Narrows

namespace Rewritten

variable (h : graph.Rewritten id result)
include h

/-- No canonical type is one for which standard passes look. -/
theorem not_raw {now : Node} (hnow : result.bare? id = some now) : now.opType ∉ rawTypes := by
  have hcanonical := h.own now hnow
  simp only [List.mem_cons, List.not_mem_nil, or_false] at hcanonical
  rcases hcanonical with htype | htype | htype | htype <;> simp [rawTypes, htype]

/-- A rewrite makes no node that standard passes look for. -/
theorem narrows : graph.Narrows result := by
  intro other now hnow hraw
  by_cases hother : other = id
  · exact absurd hraw (h.not_raw (hother ▸ hnow))
  · rcases h.others other now hother hnow with htype | ⟨bare, hbare, hsame, hfed⟩
    · rcases htype with htype | htype <;> simp [rawTypes, htype] at hraw
    · exact ⟨bare, hbare, by rw [hsame], by rw [hsame], hfed⟩

/-- The match that led to the rewrite holds no more. -/
theorem stillMatches_eq_false (hpass : pass.Standard) {label : String}
    (hid : found.require label = .ok id) : pass.pattern.stillMatches result found = false := by
  obtain ⟨node, opType, hsingle, htype, hraw⟩ := hpass.exists_isSingle
  rw [Bool.eq_false_iff]
  intro hmatches
  obtain ⟨bound, hbound, haccepts⟩ := Pattern.accepted_of_stillMatches hsingle hmatches hid
  have hown : bound.opType = opType := Pattern.opType_of_accepts htype haccepts
  exact h.not_raw (bare?_of_node? hbound) (hown ▸ hraw)

end Rewritten

end Graph

/-! ### Runs -/

variable {verify : Bool} {stats next : PassStats}

/-- After its turn a match of a standard pass does not hold. -/
theorem Pass.Standard.cleared_of_turn (hpass : pass.Standard) (h : graph.Coherent)
    (hrun : (pass.applyTo verify stats found).run graph = .ok next result) :
    result.Coherent ∧ graph.Narrows result ∧ pass.pattern.stillMatches result found = false := by
  rcases run_applyTo_eq_ok hrun with ⟨hstale, rfl⟩ | ⟨hmatches, happly⟩
  · exact ⟨h, .refl _, hstale⟩
  · obtain ⟨label, id, hid, hrewritten⟩ := hpass.rewritten_of_run h hmatches happly
    exact ⟨hrewritten.coherent, hrewritten.narrows, hrewritten.stillMatches_eq_false hpass hid⟩

/-- After their turns no match of a standard pass holds: a later turn brings no earlier match back. -/
theorem Pass.Standard.cleared_of_turns (hpass : pass.Standard) {matched : List Match}
    (h : graph.Coherent)
    (hrun : (matched.foldlM (pass.applyTo verify) stats).run graph = .ok next result) :
    result.Coherent ∧ graph.Narrows result ∧
      ∀ found ∈ matched, pass.pattern.stillMatches result found = false := by
  induction matched generalizing graph stats with
  | nil =>
    cases hrun
    exact ⟨h, .refl _, fun _ hmem => absurd hmem List.not_mem_nil⟩
  | cons head tail ih =>
    rw [List.foldlM_cons] at hrun
    obtain ⟨first, middle, hturn, hrun⟩ := run_bind_eq_ok.mp hrun
    obtain ⟨hmiddle, hnarrows, hhead⟩ := hpass.cleared_of_turn h hturn
    obtain ⟨hresult, hlater, htail⟩ := ih hmiddle hrun
    refine ⟨hresult, hnarrows.trans hlater, fun found hmem => ?_⟩
    rcases List.mem_cons.mp hmem with rfl | hmem
    · rw [Bool.eq_false_iff]
      intro hmatches
      rw [hlater.stillMatches hpass hmatches] at hhead
      cases hhead
    · exact htail found hmem

/-- After a run of a standard pass the pass matches nowhere. -/
theorem Pass.Standard.cleared_of_run (hpass : pass.Standard) (h : graph.Coherent)
    (hrun : (pass.run verify).run graph = .ok stats result) :
    result.Coherent ∧ graph.Narrows result ∧ result.Clear pass := by
  obtain ⟨_, _, hget, hrun⟩ := run_bind_eq_ok.mp hrun
  cases hget
  obtain ⟨hresult, hnarrows, hcleared⟩ := hpass.cleared_of_turns h hrun
  refine ⟨hresult, hnarrows, List.eq_nil_iff_forall_not_mem.mpr fun found hmem => ?_⟩
  obtain ⟨node, _, hsingle, _⟩ := hpass.exists_isSingle
  obtain ⟨id, bound, hfound, hbound, haccepts⟩ := (Pattern.mem_findAll_of_isSingle hsingle).mp hmem
  have hmatches : pass.pattern.stillMatches result found = true :=
    (Pattern.stillMatches_of_isSingle hsingle).mpr ⟨_, id, bound, hfound, hbound, haccepts⟩
  -- What matches at the end matched at the start, so it had its turn.
  have hbefore := hnarrows.stillMatches hpass hmatches
  obtain ⟨_, old, before, hsame, hold, hacceptsOld⟩ :=
    (Pattern.stillMatches_of_isSingle hsingle).mp hbefore
  rw [hfound] at hsame
  cases hsame
  have hturn := hcleared found ((Pattern.mem_findAll_of_isSingle hsingle).mpr
    ⟨id, before, hfound, hold, hacceptsOld⟩)
  rw [hmatches] at hturn
  cases hturn

/-- Where a pass matches nowhere its run does nothing. -/
theorem Graph.Clear.run (h : graph.Clear pass) (verify : Bool) :
    (pass.run verify).run graph = .ok { PassStats.empty with passes := 1 } graph := by
  change ((pass.pattern.findAll graph).foldlM (pass.applyTo verify)
    { PassStats.empty with passes := 1, found := (pass.pattern.findAll graph).length }).run graph = _
  rw [show pass.pattern.findAll graph = [] from h]
  rfl

/-- After runs of several standard passes none of them matches anywhere. -/
theorem cleared_of_runs {passes : List Pass} (hpasses : ∀ pass ∈ passes, pass.Standard)
    (h : graph.Coherent)
    (hrun : (passes.foldlM (fun (stats : PassStats) (pass : Pass) => return stats ++ (← pass.run verify)) stats).run graph =
      .ok next result) :
    result.Coherent ∧ graph.Narrows result ∧ ∀ pass ∈ passes, result.Clear pass := by
  induction passes generalizing graph stats with
  | nil =>
    cases hrun
    exact ⟨h, .refl _, fun _ hmem => absurd hmem List.not_mem_nil⟩
  | cons head tail ih =>
    rw [List.foldlM_cons] at hrun
    obtain ⟨_, middle, hfirst, hrun⟩ := run_bind_eq_ok.mp hrun
    obtain ⟨_, _, hhead, hpure⟩ := run_bind_eq_ok.mp hfirst
    cases hpure
    have hstandard := hpasses head (by simp)
    obtain ⟨hmiddle, hnarrows, hclear⟩ := hstandard.cleared_of_run h hhead
    obtain ⟨hresult, hlater, htail⟩ :=
      ih (fun pass hmem => hpasses pass (List.mem_cons_of_mem head hmem)) hmiddle hrun
    refine ⟨hresult, hnarrows.trans hlater, fun pass hmem => ?_⟩
    rcases List.mem_cons.mp hmem with rfl | hmem
    · exact hlater.clear hstandard hclear
    · exact htail pass hmem

/-- A pass that found nothing adds to the count of passes alone. -/
theorem PassStats.append_idle (stats : PassStats) :
    stats ++ { PassStats.empty with passes := 1 } = { stats with passes := stats.passes + 1 } := by
  change stats.append _ = _
  simp [append, empty]

/-- Where several passes match nowhere their runs do nothing. -/
theorem run_of_clear {passes : List Pass} (hclear : ∀ pass ∈ passes, graph.Clear pass)
    (verify : Bool) (stats : PassStats) :
    (passes.foldlM (fun (stats : PassStats) (pass : Pass) => return stats ++ (← pass.run verify)) stats).run graph =
      .ok { stats with passes := stats.passes + passes.length } graph := by
  induction passes generalizing stats with
  | nil => rfl
  | cons head tail ih =>
    have hhead := (hclear head (by simp)).run verify
    rw [List.foldlM_cons]
    refine run_bind_eq_ok.mpr ⟨stats ++ { PassStats.empty with passes := 1 }, graph,
      run_bind_eq_ok.mpr ⟨_, graph, hhead, rfl⟩, ?_⟩
    rw [ih fun pass hmem => hclear pass (List.mem_cons_of_mem head hmem), PassStats.append_idle,
      List.length_cons, Nat.add_assoc, Nat.add_comm 1]

namespace PassRegistry

variable {registry : PassRegistry} {order : List String}

/-- Passes that are run are passes of the registry. -/
theorem mem_of_scheduled (hmem : pass ∈ order.filterMap registry.get?) : pass ∈ registry := by
  obtain ⟨name, _, hname⟩ := List.mem_filterMap.mp hmem
  exact List.mem_of_find?_eq_some hname

/-- After a run of a registry of standard passes none of the passes that ran matches anywhere. -/
theorem cleared_of_run (hstandard : ∀ pass ∈ registry, pass.Standard) (h : graph.Coherent)
    (horder : registry.schedule = .ok order)
    (hrun : (registry.run verify).run graph = .ok stats result) :
    result.Coherent ∧ graph.Narrows result ∧
      ∀ pass ∈ order.filterMap registry.get?, result.Clear pass := by
  obtain ⟨scheduled, hscheduled, hrun⟩ := run_ofExcept_bind_eq_ok.mp hrun
  cases horder.symm.trans hscheduled
  exact cleared_of_runs (fun pass hmem => hstandard pass (mem_of_scheduled hmem)) h hrun

/-- Where the passes of a registry match nowhere a run of the registry does nothing. -/
theorem run_of_clear (horder : registry.schedule = .ok order)
    (hclear : ∀ pass ∈ order.filterMap registry.get?, graph.Clear pass) (verify : Bool) :
    (registry.run verify).run graph =
      .ok { PassStats.empty with passes := (order.filterMap registry.get?).length } graph := by
  refine run_ofExcept_bind_eq_ok.mpr ⟨order, horder, ?_⟩
  rw [OpGraph.run_of_clear hclear]
  simp [PassStats.empty]

end PassRegistry

end OpGraph
