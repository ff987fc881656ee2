import OpGraph.Proofs.Pass.Schedule

/-!
# The passes that a cyclic registry lists

A registry whose constraints form a cycle has no schedule, and the error lists passes. The names
that get stuck are those behind which there is a cycle. Of them the names from which no cycle can
be reached are dropped. What is left are the passes on cycles, but also every pass on a way from
one cycle to another.
-/

namespace OpGraph.PassRegistry

variable {constraints : List (String × String)} {leads : String → String → Bool}
  {remaining order stuck : List String} {name : String} {steps : Nat} {registry : PassRegistry}

/-- The enabled pass must come before itself, be it by a constraint of its own or through others. -/
def OnCycle (registry : PassRegistry) (name : String) : Prop :=
  Relation.TransGen registry.Precedes name name

/-- A pass on a cycle must come before this pass. -/
def HasCycleBefore (registry : PassRegistry) (name : String) : Prop :=
  ∃ first, registry.OnCycle first ∧ Relation.TransGen registry.Precedes first name

/-- This pass must come before a pass on a cycle. -/
def HasCycleAfter (registry : PassRegistry) (name : String) : Prop :=
  ∃ last, registry.OnCycle last ∧ Relation.TransGen registry.Precedes name last

/-- The pass lies on a way from a cycle to a cycle, which can be one and the same. -/
def BetweenCycles (registry : PassRegistry) (name : String) : Prop :=
  registry.HasCycleBefore name ∧ registry.HasCycleAfter name

/-- A pass on a cycle has this cycle before it and after it. -/
theorem OnCycle.between (h : registry.OnCycle name) : registry.BetweenCycles name :=
  ⟨⟨name, h, h⟩, name, h, h⟩

/-! ### Names that get stuck -/

/-- Names that wait for each other are never taken. -/
theorem mem_stuck_of_blocked {blocked : String → Prop}
    (hblocked : ∀ name, blocked name → ∃ other, blocked other ∧ (other, name) ∈ constraints)
    (hremaining : ∀ name, blocked name → name ∈ remaining)
    (htake : takeReady constraints steps remaining = (order, stuck)) (hname : blocked name) :
    name ∈ stuck := by
  induction steps generalizing remaining order with
  | zero =>
    cases htake
    exact hremaining name hname
  | succ steps ih =>
    rw [takeReady_succ] at htake
    split at htake
    · cases htake
      exact hremaining name hname
    · rename_i taken hfind
      obtain ⟨_, hstuck⟩ := Prod.mk.injEq .. ▸ htake
      have hready := isReady_iff.mp (List.find?_some hfind)
      have hkept : ∀ name, blocked name → name ∈ remaining.erase taken := by
        intro name hname
        obtain ⟨other, hother, hconstraint⟩ := hblocked name hname
        have hne : name ≠ taken := by
          rintro rfl
          exact hready other (hremaining other hother) hconstraint
        exact (List.mem_erase_of_ne hne).mpr (hremaining name hname)
      exact ih hkept (Prod.ext rfl hstuck)

/-- Of two passes in a constraint the later one has a cycle before it if the earlier one has. -/
theorem HasCycleBefore.tail {other : String} (h : registry.HasCycleBefore name)
    (hprecedes : registry.Precedes name other) : registry.HasCycleBefore other := by
  obtain ⟨first, hcycle, hleads⟩ := h
  exact ⟨first, hcycle, hleads.tail hprecedes⟩

/-- A pass with a cycle before it is preceded by another such pass. -/
theorem HasCycleBefore.exists_before (h : registry.HasCycleBefore name) :
    ∃ other, registry.HasCycleBefore other ∧ registry.Precedes other name := by
  obtain ⟨first, hcycle, hleads⟩ := h
  obtain ⟨other, hother, hprecedes⟩ := Relation.TransGen.tail'_iff.mp hleads
  exact ⟨other, ⟨first, hcycle, Relation.TransGen.trans_left hcycle hother⟩, hprecedes⟩

/-- The names that get stuck are those that have a cycle before them. -/
theorem mem_stuck_iff
    (htake : takeReady registry.constraints registry.enabledNames.length registry.enabledNames =
      (order, stuck)) : name ∈ stuck ↔ registry.HasCycleBefore name := by
  constructor
  · exact fun hname => exists_cycle_before (fun _ => exists_stuck_before htake) hname
  · intro hname
    refine mem_stuck_of_blocked (fun name hblocked => ?_) (fun name hblocked => ?_) htake hname
    · obtain ⟨other, hother, hprecedes⟩ := hblocked.exists_before
      exact ⟨other, hother, mem_constraints_iff.mpr hprecedes⟩
    · obtain ⟨_, _, hprecedes⟩ := hblocked.exists_before
      exact hprecedes.2.2

/-! ### Names that are dropped -/

/-- With a round for each name, every name that is left must come before another one that is. -/
theorem exists_later_of_mem_dropFinal (hsteps : remaining.length ≤ steps)
    (hname : name ∈ dropFinal leads steps remaining) :
    ∃ other ∈ dropFinal leads steps remaining, leads name other = true := by
  induction steps generalizing remaining with
  | zero =>
    have hnil : remaining = [] := List.length_eq_zero_iff.mp (Nat.le_zero.mp hsteps)
    rw [hnil] at hname
    cases hname
  | succ steps ih =>
    rw [dropFinal_succ] at hname ⊢
    dsimp only at hname ⊢
    split at hname
    · rename_i hlength
      have hlater := List.length_filter_eq_length_iff.mp hlength name hname
      rw [if_pos hlength]
      exact List.any_eq_true.mp hlater
    · rename_i hlength
      have hle := List.length_filter_le (fun name => remaining.any (leads name)) remaining
      rw [if_neg hlength]
      exact ih (by omega) hname

/-- Names of which each must come before another one of them are never dropped. -/
theorem mem_dropFinal_of_leading {leading : String → Prop}
    (hleading : ∀ name, leading name → ∃ other, leading other ∧ leads name other = true)
    (hremaining : ∀ name, leading name → name ∈ remaining) (hname : leading name) :
    name ∈ dropFinal leads steps remaining := by
  induction steps generalizing remaining with
  | zero => exact hremaining name hname
  | succ steps ih =>
    rw [dropFinal_succ]
    dsimp only
    split
    · exact hremaining name hname
    · refine ih fun name hname => List.mem_filter.mpr ⟨hremaining name hname, ?_⟩
      obtain ⟨other, hother, hlead⟩ := hleading name hname
      exact List.any_eq_true.mpr ⟨other, hremaining other hother, hlead⟩

/-- Of the names that are stuck those are left that have a cycle after them too. -/
theorem mem_dropFinal_iff (hstuck : ∀ name, name ∈ stuck ↔ registry.HasCycleBefore name) :
    name ∈ dropFinal registry.leads stuck.length stuck ↔
      registry.BetweenCycles name := by
  constructor
  · intro hname
    have hahead : ∀ name ∈ dropFinal registry.leads stuck.length stuck,
        ∃ other ∈ dropFinal registry.leads stuck.length stuck,
          registry.Precedes name other := by
      intro name hname
      obtain ⟨other, hother, hlead⟩ := exists_later_of_mem_dropFinal (Nat.le_refl _) hname
      exact ⟨other, hother, leads_iff.mp hlead⟩
    exact ⟨(hstuck name).mp (dropFinal_sublist.subset hname), exists_cycle_after hahead hname⟩
  · intro hname
    have hleading : ∀ name, registry.BetweenCycles name →
        ∃ other, registry.BetweenCycles other ∧ registry.leads name other = true := by
      rintro name ⟨hbefore, last, hcycle, hleads⟩
      obtain ⟨other, hprecedes, hrest⟩ := Relation.TransGen.head'_iff.mp hleads
      have hafter : registry.HasCycleAfter other :=
        ⟨last, hcycle, Relation.TransGen.trans_right hrest hcycle⟩
      exact ⟨other, ⟨hbefore.tail hprecedes, hafter⟩, leads_iff.mpr hprecedes⟩
    exact mem_dropFinal_of_leading hleading (fun name hboth => (hstuck name).mpr hboth.1) hname

/-! ### The error -/

/-- The list of an error about cycles is what is left of the names that are stuck. -/
theorem exists_stuck_of_schedule {involved : List String}
    (h : registry.schedule = .error (.cyclicPassDependency involved)) :
    registry.names.Nodup ∧ ∃ order stuck,
      takeReady registry.constraints registry.enabledNames.length registry.enabledNames =
        (order, stuck) ∧ involved = dropFinal registry.leads stuck.length stuck := by
  rw [schedule_eq] at h
  cases hrepeat : firstRepeat? registry.names with
  | some name =>
    rw [hrepeat] at h
    cases h
  | none =>
    rw [hrepeat] at h
    cases hunknown : registry.unresolved? with
    | some named =>
      rw [hunknown] at h
      cases h
    | none =>
      rw [hunknown] at h
      dsimp only at h
      split at h
      · cases h
      · cases h
        exact ⟨(firstRepeat?_eq_none_iff _).mp hrepeat, _, _, rfl, rfl⟩

/-- What gets stuck remains in the order of registration. -/
theorem takeReady_sublist (hnodup : remaining.Nodup)
    (htake : takeReady constraints steps remaining = (order, stuck)) : stuck.Sublist remaining := by
  have hsublist : (takeReady constraints steps remaining).2.Sublist remaining := by
    rw [takeReady_snd hnodup]
    exact List.filter_sublist
  rwa [htake] at hsublist

/-- The error about cycles lists distinct enabled passes in the order of registration, and it lists
exactly those that lie between cycles. So it lists all passes on cycles and no pass that merely
precedes or merely follows cycles, and it lists the passes on cycles alone exactly if every pass
between cycles is on one. -/
theorem cyclic_passes_listed {involved : List String}
    (h : registry.schedule = .error (.cyclicPassDependency involved)) :
    involved.Sublist registry.enabledNames ∧ registry.enabledNames.Nodup ∧
      (∀ name, name ∈ involved ↔ registry.BetweenCycles name) ∧
      (∀ name, registry.OnCycle name → name ∈ involved) ∧
      ((∀ name, name ∈ involved ↔ registry.OnCycle name) ↔
        ∀ name, registry.BetweenCycles name → registry.OnCycle name) := by
  obtain ⟨hdistinct, order, stuck, htake, rfl⟩ := exists_stuck_of_schedule h
  have hlisted : ∀ name, name ∈ dropFinal registry.leads stuck.length stuck ↔
      registry.BetweenCycles name :=
    fun name => mem_dropFinal_iff fun _ => mem_stuck_iff htake
  have hcycle : ∀ name, registry.OnCycle name →
      name ∈ dropFinal registry.leads stuck.length stuck :=
    fun name hname => (hlisted name).mpr hname.between
  have hnodup := hdistinct.sublist registry.enabledNames_sublist
  refine ⟨dropFinal_sublist.trans (takeReady_sublist hnodup htake), hnodup, hlisted, hcycle, ?_, ?_⟩
  · exact fun hexact name hbetween => (hexact name).mp ((hlisted name).mpr hbetween)
  · exact fun hbetween name => ⟨fun hname => hbetween name ((hlisted name).mp hname), hcycle name⟩

/-! ### A pass between two loops -/

/-- An enabled pass that runs after others and does nothing. -/
def idlePass (name : String) (after : List String) : Pass where
  name
  enabled := true
  pattern := .single "node" "Relu"
  after
  before := []
  apply := fun _ => pure ()

/-- Two loops of two passes each, and a pass that must come after the first loop and before the
second one. -/
def twoLoops : PassRegistry :=
  [idlePass "A" ["B"], idlePass "B" ["A"], idlePass "M" ["B"], idlePass "C" ["M", "D"],
    idlePass "D" ["C"]]

theorem schedule_twoLoops :
    twoLoops.schedule = .error (.cyclicPassDependency ["A", "B", "M", "C", "D"]) := by
  rfl

/-- The pass between the loops has a loop before it and a loop after it. -/
theorem cyclic_passes_listed_twoLoops :
    twoLoops.schedule = .error (.cyclicPassDependency ["A", "B", "M", "C", "D"]) ∧
      twoLoops.HasCycleBefore "M" ∧ twoLoops.HasCycleAfter "M" := by
  obtain ⟨_, _, hlisted, _⟩ := cyclic_passes_listed schedule_twoLoops
  exact ⟨schedule_twoLoops, (hlisted "M").mp (by decide)⟩

/-- The error lists the pass between the loops, which is on no cycle. -/
theorem listed_off_cycle_twoLoops :
    twoLoops.schedule = .error (.cyclicPassDependency ["A", "B", "M", "C", "D"]) ∧
      ¬ twoLoops.OnCycle "M" := by
  refine ⟨schedule_twoLoops, fun hcycle => ?_⟩
  -- Constraints lead from the pass between the loops to the second loop, and not out of it again.
  have hstep : ∀ ends ∈ twoLoops.constraints, ends.1 ∈ ["M", "C", "D"] → ends.2 ∈ ["C", "D"] := by
    decide
  have hlater : ∀ name, Relation.TransGen twoLoops.Precedes "M" name → name ∈ ["C", "D"] := by
    intro name hleads
    induction hleads with
    | single hprecedes => exact hstep _ (mem_constraints_iff.mpr hprecedes) List.mem_cons_self
    | tail _ hprecedes ih =>
      exact hstep _ (mem_constraints_iff.mpr hprecedes) (List.mem_cons_of_mem "M" ih)
  exact absurd (hlater "M" hcycle) (by decide)

end OpGraph.PassRegistry
