import OpGraph.Proofs.Edit.Outcome
import OpGraph.Proofs.Pattern.Search
import OpGraph.Pass.Run

/-!
# Tests of matches against new searches

Before and after the turn of a match a run tests the nodes of this one match. It could as well
search the whole graph again and look for the match among all that are found. Whatever the pass
does to the graph in between, both runs end alike: with the same graph, the same error and the
same counts. A run that succeeds counts every match that it found once, as applied or as stale.
-/

namespace OpGraph

namespace Pass

/-- Turn of one match, tested by searching the graph again. -/
def takeTurn (pass : Pass) (verify : Bool) (stats : PassStats) (found : Match) : Edit PassStats := do
  let graph ← get
  if found ∈ pass.pattern.findAll graph then
    pass.apply found
    if verify ∧ found ∈ pass.pattern.findAll (← get) then
      throw (.passPostcondition pass.name (found.anchorName graph))
    return stats.record (found.anchorName graph)
  else return { stats with stale := stats.stale + 1 }

/-- Turns of several matches, one after the other. -/
def takeTurns (pass : Pass) (verify : Bool) : PassStats → List Match → Edit PassStats
  | stats, [] => return stats
  | stats, found :: rest => do pass.takeTurns verify (← pass.takeTurn verify stats found) rest

/-- Apply a pass to the matches that are found first, with a new search for each test. -/
def runRescanning (pass : Pass) (verify : Bool) : Edit PassStats := do
  let matched := pass.pattern.findAll (← get)
  pass.takeTurns verify { PassStats.empty with passes := 1, found := matched.length } matched

variable {pass : Pass} {verify : Bool} {stats next : PassStats} {found : Match}
  {matched : List Match} {before graph result : Graph}

/-! ### One run and the other -/

/-- The turn of a match that was found in some graph goes the same way with both tests. -/
theorem applyTo_eq_takeTurn (h : found ∈ pass.pattern.findAll before) (stats : PassStats) :
    pass.applyTo verify stats found = pass.takeTurn verify stats found := by
  have htest : ∀ graph, pass.pattern.stillMatches graph found =
      decide (found ∈ pass.pattern.findAll graph) := fun graph => by
    rw [Bool.eq_iff_iff, decide_eq_true_eq]
    exact Pattern.stillMatches_iff_mem_findAll h
  unfold applyTo takeTurn
  refine bind_congr fun graph => ?_
  rw [htest graph]
  by_cases hmem : found ∈ pass.pattern.findAll graph
  · rw [if_neg (by simp [hmem]), if_pos hmem]
    refine bind_congr fun _ => bind_congr fun left => ?_
    simp only [htest left, Bool.and_eq_true, decide_eq_true_eq]
  · rw [if_pos (by simp [hmem]), if_neg hmem]

/-- The turns of matches that were found in one graph go the same way with both tests, although
the graph changes from turn to turn. -/
theorem foldlM_applyTo_eq_takeTurns (h : ∀ found ∈ matched, found ∈ pass.pattern.findAll before)
    (stats : PassStats) :
    matched.foldlM (pass.applyTo verify) stats = pass.takeTurns verify stats matched := by
  induction matched generalizing stats with
  | nil => rfl
  | cons found rest ih =>
    rw [List.foldlM_cons, applyTo_eq_takeTurn (h found List.mem_cons_self)]
    exact bind_congr fun next => ih (fun other hother => h other (List.mem_cons_of_mem found hother)) next

/-! ### Counts -/

/-- A turn that succeeds counts its match once, as applied or as stale. -/
theorem count_of_applyTo (hrun : (pass.applyTo verify stats found).run graph = .ok next result) :
    next = { stats with stale := stats.stale + 1 } ∨ ∃ anchor, next = stats.record anchor := by
  unfold applyTo at hrun
  obtain ⟨_, _, hget, hrun⟩ := Edit.run_bind_eq_ok.mp hrun
  cases hget
  split at hrun
  · cases hrun
    exact .inl rfl
  · obtain ⟨_, _, _, hrun⟩ := Edit.run_bind_eq_ok.mp hrun
    obtain ⟨_, _, hget, hrun⟩ := Edit.run_bind_eq_ok.mp hrun
    cases hget
    split at hrun
    · cases hrun
    · cases hrun
      exact .inr ⟨_, rfl⟩

/-- Turns that succeed count each of their matches once, and record an anchor for each match
that they apply. -/
theorem count_of_foldlM_applyTo
    (hrun : (matched.foldlM (pass.applyTo verify) stats).run graph = .ok next result) :
    next.found = stats.found ∧
      next.applied + next.stale = stats.applied + stats.stale + matched.length ∧
      next.anchors.length + stats.applied = stats.anchors.length + next.applied := by
  induction matched generalizing stats graph with
  | nil =>
    cases hrun
    exact ⟨rfl, rfl, rfl⟩
  | cons found rest ih =>
    rw [List.foldlM_cons] at hrun
    obtain ⟨turned, middle, hturn, hrun⟩ := Edit.run_bind_eq_ok.mp hrun
    obtain ⟨hfound, hcount, hanchors⟩ := ih hrun
    rw [List.length_cons]
    rcases count_of_applyTo hturn with rfl | ⟨anchor, rfl⟩
    · exact ⟨hfound, by simp only at hcount; omega, hanchors⟩
    · simp only [PassStats.record, List.length_append, List.length_singleton] at hfound hcount hanchors
      exact ⟨hfound, by omega, by omega⟩

/-- A run of a pass is a run that searches the graph again before and after each turn, whatever
the pass does. A run that succeeds found the matches of the graph that it started with, applied
or passed over each of them, and recorded an anchor for each that it applied. -/
theorem run_eq_runRescanning (pass : Pass) (verify : Bool) :
    pass.run verify = pass.runRescanning verify ∧
    ∀ graph stats result, (pass.run verify).run graph = .ok stats result →
      stats.found = (pass.pattern.findAll graph).length ∧
      stats.found = stats.applied + stats.stale ∧
      stats.anchors.length = stats.applied := by
  refine ⟨?_, fun graph stats result hrun => ?_⟩
  · exact bind_congr fun graph => foldlM_applyTo_eq_takeTurns (fun _ hfound => hfound) _
  · obtain ⟨_, _, hget, hrun⟩ := Edit.run_bind_eq_ok.mp hrun
    cases hget
    obtain ⟨hfound, hcount, hanchors⟩ := count_of_foldlM_applyTo hrun
    simp only [PassStats.empty, List.length_nil] at hfound hcount hanchors
    exact ⟨hfound, by omega, by omega⟩

end Pass

end OpGraph
