import OpGraph.Pipeline
import OpGraph.Proofs.Edit.Outcome

/-!
# What runs of passes preserve

A run of a pass applies it to matches that hold at that moment. What the pass preserves with
each such match its run preserves, and what all passes of a registry preserve the run of the
registry preserves.
-/

namespace OpGraph

/-- A standard pass, switched on or off. -/
def Pass.Standard (pass : Pass) : Prop := { pass with enabled := true } ∈ PassRegistry.standard

/-- A standard pass does what one of the registry does, at the same places. -/
theorem Pass.Standard.exists_mem {pass : Pass} (h : pass.Standard) :
    ∃ builtIn ∈ PassRegistry.standard, pass.pattern = builtIn.pattern ∧ pass.apply = builtIn.apply :=
  ⟨_, h, rfl, rfl⟩

namespace PassRegistry

/-- What is taken out of the standard registry is a standard pass. -/
theorem standard_of_mem {pass : Pass} (h : pass ∈ PassRegistry.standard) : pass.Standard := by
  simp only [standard, List.mem_cons, List.not_mem_nil, or_false] at h
  rcases h with rfl | rfl | rfl | rfl <;> simp [Pass.Standard, standard, Pass.outputMarkers,
    Pass.maxPool, Pass.avgPool, Pass.gatherAxis]

/-- Switching a pass off leaves a registry of standard passes. -/
theorem standard_of_setEnabled? {registry result : PassRegistry} {name : String} {enabled : Bool}
    (h : ∀ pass ∈ registry, pass.Standard) (hset : registry.setEnabled? name enabled = some result) :
    ∀ pass ∈ result, pass.Standard := by
  obtain ⟨index, _, rfl⟩ := Option.map_eq_some_iff.mp hset
  intro pass hpass
  obtain ⟨position, hposition⟩ := List.mem_iff_getElem?.mp hpass
  rw [List.getElem?_modify] at hposition
  obtain ⟨old, hold, rfl⟩ := Option.map_eq_some_iff.mp hposition
  have hstandard := h old (List.mem_of_getElem? hold)
  split
  · exact hstandard
  · exact hstandard

/-- Leaving out passes leaves a registry of standard passes. -/
theorem standard_of_disableAll {registry result : PassRegistry} {names : List String}
    (h : ∀ pass ∈ registry, pass.Standard) (hdisable : registry.disableAll names = .ok result) :
    ∀ pass ∈ result, pass.Standard := by
  induction names generalizing registry with
  | nil =>
    cases hdisable
    exact h
  | cons name rest ih =>
    unfold disableAll at hdisable
    rw [List.foldlM_cons] at hdisable
    cases hset : registry.setEnabled? name false with
    | none =>
      rw [hset] at hdisable
      cases hdisable
    | some next =>
      rw [hset] at hdisable
      exact ih (standard_of_setEnabled? h hset) hdisable

/-- The standard passes, of which the chosen ones are enabled. -/
def choose (chosen : String → Bool) : PassRegistry :=
  standard.map fun pass => { pass with enabled := chosen pass.name }

theorem standard_of_choose {chosen : String → Bool} {pass : Pass} (h : pass ∈ choose chosen) :
    pass.Standard := by
  obtain ⟨builtIn, hmem, rfl⟩ := List.mem_map.mp h
  have hstandard : builtIn.Standard := standard_of_mem hmem
  exact hstandard

end PassRegistry

namespace Edit

variable {P : Graph → Prop} {pass : Pass}

/-- A run of a pass keeps what the pass keeps with each match. -/
theorem keeps_run_pass (verify : Bool) (h : ∀ found, Keeps P (pass.apply found)) :
    Keeps P (pass.run verify) := by
  refine keeps_get_bind fun graph hgraph => keeps_foldlM (fun found _ stats => ?_) _ graph hgraph
  refine keeps_get_bind fun graph hgraph => ?_
  by_cases hstale : (!pass.pattern.stillMatches graph found) = true
  · rw [if_pos hstale]
    exact hgraph
  · rw [if_neg hstale]
    refine keeps_bind (h found) (fun _ => keeps_get_bind fun result hresult => ?_) graph hgraph
    by_cases hfailed : (verify && pass.pattern.stillMatches result found) = true
    · rw [if_pos hfailed]
      exact hresult
    · rw [if_neg hfailed]
      exact hresult

/-- A successful turn of one match is either stale and changes nothing or a successful
application to a match that holds. -/
theorem run_applyTo_eq_ok {verify : Bool} {stats next : PassStats} {found : Match}
    {graph result : Graph} (hrun : (pass.applyTo verify stats found).run graph = .ok next result) :
    (pass.pattern.stillMatches graph found = false ∧ result = graph) ∨
      (pass.pattern.stillMatches graph found = true ∧
        (pass.apply found).run graph = .ok () result) := by
  unfold Pass.applyTo at hrun
  obtain ⟨_, _, hget, hrest⟩ := run_bind_eq_ok.mp hrun
  cases hget
  cases hmatches : pass.pattern.stillMatches graph found with
  | false =>
    rw [if_pos (by rw [hmatches]; rfl)] at hrest
    cases hrest
    exact .inl ⟨rfl, rfl⟩
  | true =>
    rw [if_neg (by rw [hmatches]; decide)] at hrest
    obtain ⟨_, middle, happly, hrest⟩ := run_bind_eq_ok.mp hrest
    obtain ⟨_, _, hget, hrest⟩ := run_bind_eq_ok.mp hrest
    cases hget
    refine .inr ⟨rfl, ?_⟩
    split at hrest
    · cases hrest
    · cases hrest
      exact happly

/-- A successful run of a pass ensures what every successful application to a match that holds
preserves. -/
theorem ensures_run_pass (verify : Bool)
    (h : ∀ found, Ensures (fun graph => P graph ∧ pass.pattern.stillMatches graph found = true)
      (pass.apply found) fun _ => P) : Ensures P (pass.run verify) fun _ => P := by
  refine ensures_get_bind fun start hstart graph value result hgraph hrun => ?_
  refine ensures_foldlM (fun found _ stats graph next result hP hrun => ?_) _ graph value result
    (hgraph ▸ hstart) hrun
  rcases run_applyTo_eq_ok hrun with ⟨_, rfl⟩ | ⟨hmatches, happly⟩
  · exact hP
  · exact h found graph () result ⟨hP, hmatches⟩ happly

/-- A successful run of a registry ensures what the runs of its passes preserve. -/
theorem ensures_run_passes {registry : PassRegistry} (verify : Bool)
    (h : ∀ pass ∈ registry, Ensures P (pass.run verify) fun _ => P) :
    Ensures P (registry.run verify) fun _ => P := by
  refine ensures_bind (ensures_ofExcept (Q := fun _ => P) fun _ _ hP _ => hP) fun order => ?_
  refine ensures_foldlM (fun pass hmem stats => ?_) _
  obtain ⟨name, _, hname⟩ := List.mem_filterMap.mp hmem
  exact ensures_bind (h pass (List.mem_of_find?_eq_some hname)) fun _ =>
    ensures_pure fun _ hP => hP

end Edit

end OpGraph
