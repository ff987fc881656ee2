import OpGraph.Proofs.Cycle
import OpGraph.Proofs.Pass.Counting

/-!
# The schedule is the first legal order

Enabled passes are taken one at a time, each time the first one that none of the remaining ones
must precede. An order arises in this way exactly if it is legal, and the one that always takes
the first ready pass is the least of them by the places of registration. Passes get stuck only
if a constraint leads from one of them back to itself.
-/

namespace OpGraph

namespace PassRegistry

variable {constraints : List (String × String)} {remaining order other stuck : List String}
  {name first second : String} {registry : PassRegistry} {steps : Nat}

/-! ### Taking names one by one -/

/-- Names are taken from those that remain until none is left, each at a moment when none of
them must come before it. -/
inductive Takes (constraints : List (String × String)) : List String → List String → Prop where
  | done : Takes constraints [] []
  | take {remaining rest : List String} {name : String} (mem : name ∈ remaining)
      (ready : ∀ other ∈ remaining, (other, name) ∉ constraints)
      (later : Takes constraints (remaining.erase name) rest) :
      Takes constraints remaining (name :: rest)

/-- Every name that remained is taken once. -/
theorem Takes.perm (h : Takes constraints remaining order) : order.Perm remaining := by
  induction h with
  | done => exact .refl _
  | take mem _ _ ih => exact (ih.cons _).trans (List.perm_cons_erase mem).symm

/-- Names are taken in the order of the constraints. -/
theorem Takes.idxOf_lt (h : Takes constraints remaining order)
    (hconstraint : (first, second) ∈ constraints) (hfirst : first ∈ remaining)
    (hsecond : second ∈ remaining) : order.idxOf first < order.idxOf second := by
  induction h with
  | done => cases hfirst
  | @take remaining rest name mem ready later ih =>
    have hlate : second ≠ name := fun heq => ready first hfirst (heq ▸ hconstraint)
    rw [List.idxOf_cons_ne rest hlate.symm]
    by_cases hnow : first = name
    · rw [hnow, List.idxOf_cons_self]
      omega
    · rw [List.idxOf_cons_ne rest (Ne.symm hnow)]
      have hlt := ih ((List.mem_erase_of_ne hnow).mpr hfirst) ((List.mem_erase_of_ne hlate).mpr hsecond)
      omega

/-- Names in the order of the constraints can be taken one by one. -/
theorem takes_of_perm (hperm : order.Perm remaining) (hnodup : remaining.Nodup)
    (hordered : ∀ first ∈ remaining, ∀ second ∈ remaining, (first, second) ∈ constraints →
      order.idxOf first < order.idxOf second) : Takes constraints remaining order := by
  induction order generalizing remaining with
  | nil =>
    rw [List.nil_perm.mp hperm]
    exact .done
  | cons name rest ih =>
    have hmem : name ∈ remaining := hperm.mem_iff.mp List.mem_cons_self
    have hrest : rest.Perm (remaining.erase name) := (List.cons_perm_iff_perm_erase.mp hperm).2
    refine .take hmem (fun other hother hconstraint => ?_) (ih hrest (hnodup.erase name) ?_)
    · have hlt := hordered other hother name hmem hconstraint
      rw [List.idxOf_cons_self] at hlt
      omega
    · intro first hfirst second hsecond hconstraint
      obtain ⟨hfirstNe, hfirstMem⟩ := hnodup.mem_erase_iff.mp hfirst
      obtain ⟨hsecondNe, hsecondMem⟩ := hnodup.mem_erase_iff.mp hsecond
      have hlt := hordered first hfirstMem second hsecondMem hconstraint
      rw [List.idxOf_cons_ne rest hfirstNe.symm, List.idxOf_cons_ne rest hsecondNe.symm] at hlt
      omega

/-- If no name gets stuck the names were taken one by one. -/
theorem takes_of_takeReady (hsteps : remaining.length ≤ steps)
    (htake : takeReady constraints steps remaining = (order, [])) :
    Takes constraints remaining order := by
  induction steps generalizing remaining order with
  | zero =>
    have hnil : remaining = [] := List.length_eq_zero_iff.mp (Nat.le_zero.mp hsteps)
    subst hnil
    cases htake
    exact .done
  | succ steps ih =>
    rw [takeReady_succ] at htake
    split at htake
    · cases htake
      exact .done
    · rename_i name hfind
      have hmem := List.mem_of_find?_eq_some hfind
      have hlength := List.length_erase_of_mem hmem
      have hpos := List.length_pos_of_mem hmem
      obtain ⟨horder, hstuck⟩ := Prod.mk.injEq .. ▸ htake
      rw [← horder]
      exact .take hmem (isReady_iff.mp (List.find?_some hfind)) (ih (by omega) (Prod.ext rfl hstuck))

/-- Each name that gets stuck must wait for another one that gets stuck. -/
theorem exists_blocker_of_takeReady (hsteps : remaining.length ≤ steps)
    (htake : takeReady constraints steps remaining = (order, stuck)) (hname : name ∈ stuck) :
    ∃ other ∈ stuck, (other, name) ∈ constraints := by
  induction steps generalizing remaining order with
  | zero =>
    have hnil : remaining = [] := List.length_eq_zero_iff.mp (Nat.le_zero.mp hsteps)
    subst hnil
    cases htake
    cases hname
  | succ steps ih =>
    rw [takeReady_succ] at htake
    split at htake
    · rename_i hfind
      cases htake
      have hblocked := List.find?_eq_none.mp hfind name hname
      rw [isReady_iff] at hblocked
      push Not at hblocked
      exact hblocked
    · rename_i taken hfind
      have hmem := List.mem_of_find?_eq_some hfind
      have hlength := List.length_erase_of_mem hmem
      have hpos := List.length_pos_of_mem hmem
      obtain ⟨_, hstuck⟩ := Prod.mk.injEq .. ▸ htake
      exact ih (by omega) (Prod.ext rfl hstuck)

/-- Where no name remains none is taken. -/
theorem Takes.eq_nil (h : Takes constraints [] order) : order = [] := by
  cases h with
  | done => rfl
  | take mem => cases mem

/-- Taking the first ready name each time gives the least order, if the names remain in the
order of their places. -/
theorem takeReady_least {place : String → Nat}
    (hplaced : remaining.Pairwise fun first second => place first < place second)
    (htake : takeReady constraints steps remaining = (order, []))
    (hother : Takes constraints remaining other) :
    order = other ∨ List.Lex (· < ·) (order.map place) (other.map place) := by
  induction steps generalizing remaining order other with
  | zero =>
    cases htake
    exact .inl hother.eq_nil.symm
  | succ steps ih =>
    rw [takeReady_succ] at htake
    split at htake
    · cases htake
      exact .inl hother.eq_nil.symm
    · rename_i name hfind
      obtain ⟨horder, hstuck⟩ := Prod.mk.injEq .. ▸ htake
      rw [← horder]
      cases hother with
      | done => cases List.mem_of_find?_eq_some hfind
      | @take _ rest chosen mem ready later =>
        rw [List.map_cons, List.map_cons]
        obtain ⟨_, skipped, behind, hsplit, hskipped⟩ := List.find?_eq_some_iff_append.mp hfind
        rw [hsplit, List.mem_append] at mem
        -- A name before the one that is taken is not ready, so the other order cannot start with it.
        rcases mem with hbefore | hafter
        · have hnot := hskipped chosen hbefore
          rw [Bool.not_eq_true', ← Bool.not_eq_true] at hnot
          exact absurd (isReady_iff.mpr ready) hnot
        · rcases List.mem_cons.mp hafter with rfl | hlater
          · rcases ih (hplaced.sublist List.erase_sublist) (Prod.ext rfl hstuck) later with hsame | hlex
            · exact .inl (congrArg (chosen :: ·) hsame)
            · exact .inr (.cons hlex)
          · rw [hsplit, List.pairwise_append, List.pairwise_cons] at hplaced
            exact .inr (.rel (hplaced.2.1.1 chosen hlater))

/-! ### Constraints of a registry -/

/-- An enabled pass asks that the first name comes before the second. -/
def Asks (registry : PassRegistry) (first second : String) : Prop :=
  ∃ pass ∈ registry, pass.enabled = true ∧
    ((first ∈ pass.after ∧ second = pass.name) ∨ (first = pass.name ∧ second ∈ pass.before))

/-- An enabled pass asks that one enabled pass comes before another. -/
def Precedes (registry : PassRegistry) (first second : String) : Prop :=
  registry.Asks first second ∧ first ∈ registry.enabledNames ∧ second ∈ registry.enabledNames

/-- Every name in a constraint of an enabled pass is registered. -/
def Resolved (registry : PassRegistry) : Prop :=
  ∀ pass ∈ registry, pass.enabled = true → ∀ other ∈ pass.after ++ pass.before,
    other ∈ registry.names

/-- No enabled pass must come before itself, be it by a constraint of its own or through others. -/
def Acyclic (registry : PassRegistry) : Prop :=
  ∀ name, ¬ Relation.TransGen registry.Precedes name name

/-- Every enabled pass stands once, after all those that must precede it. -/
structure Legal (registry : PassRegistry) (order : List String) : Prop where
  /-- The enabled passes stand in the order, each once. -/
  perm : order.Perm registry.enabledNames
  /-- They stand as the constraints ask. -/
  ordered : ∀ first second, registry.Precedes first second → order.idxOf first < order.idxOf second

/-- Why a registry has no order. -/
inductive Refusal (registry : PassRegistry) : GraphError → Prop where
  /-- Two passes share a name. -/
  | repeated {name : String} (twice : 1 < registry.names.count name) :
      Refusal registry (.internal (.repeatedPass name))
  /-- Names are distinct, but an enabled pass names one that is not registered. -/
  | unknown {pass : Pass} {missing : String} (distinct : registry.names.Nodup)
      (mem : pass ∈ registry) (enabled : pass.enabled = true)
      (asked : missing ∈ pass.after ++ pass.before) (absent : missing ∉ registry.names) :
      Refusal registry (.unknownPass pass.name missing)
  /-- Names are distinct and registered, but some enabled pass must come before itself. -/
  | cyclic {name : String} {involved : List String} (distinct : registry.names.Nodup)
      (resolved : registry.Resolved) (cycle : Relation.TransGen registry.Precedes name name) :
      Refusal registry (.cyclicPassDependency involved)

theorem mem_constraints_iff :
    (first, second) ∈ registry.constraints ↔ registry.Precedes first second := by
  have hasks : (first, second) ∈ (registry.filter (·.enabled)).flatMap constraintsOf ↔
      registry.Asks first second := by
    simp only [List.mem_flatMap, List.mem_filter, constraintsOf, List.mem_append, List.mem_map,
      Prod.mk.injEq, Asks]
    constructor
    · rintro ⟨pass, ⟨hmem, henabled⟩, ⟨_, hafter, rfl, rfl⟩ | ⟨_, hbefore, rfl, rfl⟩⟩
      · exact ⟨pass, hmem, henabled, .inl ⟨hafter, rfl⟩⟩
      · exact ⟨pass, hmem, henabled, .inr ⟨rfl, hbefore⟩⟩
    · rintro ⟨pass, hmem, henabled, ⟨hafter, rfl⟩ | ⟨rfl, hbefore⟩⟩
      · exact ⟨pass, ⟨hmem, henabled⟩, .inl ⟨first, hafter, rfl, rfl⟩⟩
      · exact ⟨pass, ⟨hmem, henabled⟩, .inr ⟨second, hbefore, rfl, rfl⟩⟩
  unfold constraints Precedes
  rw [List.mem_filter, hasks]
  simp

theorem leads_iff : registry.leads first second = true ↔ registry.Precedes first second :=
  List.contains_iff_mem.trans mem_constraints_iff

/-- Enabled passes stand in the order of their places. -/
theorem pairwise_place (hdistinct : registry.names.Nodup) :
    registry.enabledNames.Pairwise fun first second =>
      registry.place first < registry.place second :=
  (pairwise_idxOf_of_nodup hdistinct).sublist registry.enabledNames_sublist

/-- Legal orders are those in which the enabled names can be taken one by one. -/
theorem legal_iff_takes (hdistinct : registry.names.Nodup) :
    registry.Legal order ↔ Takes registry.constraints registry.enabledNames order := by
  constructor
  · intro h
    exact takes_of_perm h.perm (hdistinct.sublist registry.enabledNames_sublist)
      fun first _ second _ hconstraint => h.ordered first second (mem_constraints_iff.mp hconstraint)
  · intro h
    exact ⟨h.perm, fun first second hprecedes =>
      h.idxOf_lt (mem_constraints_iff.mpr hprecedes) hprecedes.2.1 hprecedes.2.2⟩

/-- Only a registry without cycles has a legal order. -/
theorem Legal.acyclic (h : registry.Legal order) : registry.Acyclic := by
  have hlt : ∀ first second, Relation.TransGen registry.Precedes first second →
      order.idxOf first < order.idxOf second := by
    intro first second hleads
    induction hleads with
    | single hprecedes => exact h.ordered _ _ hprecedes
    | tail _ hprecedes ih => exact ih.trans (h.ordered _ _ hprecedes)
  exact fun name hcycle => Nat.lt_irrefl _ (hlt name name hcycle)

/-- Each pass that gets stuck must come after another one that gets stuck. -/
theorem exists_stuck_before
    (htake : takeReady registry.constraints registry.enabledNames.length registry.enabledNames =
      (order, stuck)) (hname : name ∈ stuck) : ∃ other ∈ stuck, registry.Precedes other name := by
  obtain ⟨other, hother, hconstraint⟩ := exists_blocker_of_takeReady (Nat.le_refl _) htake hname
  exact ⟨other, hother, mem_constraints_iff.mp hconstraint⟩

/-- Where names get stuck some pass must come before itself. -/
theorem exists_cycle_of_stuck
    (htake : takeReady registry.constraints registry.enabledNames.length registry.enabledNames =
      (order, stuck)) (hstuck : stuck ≠ []) :
    ∃ name, Relation.TransGen registry.Precedes name name := by
  obtain ⟨name, hname⟩ := List.exists_mem_of_ne_nil stuck hstuck
  obtain ⟨start, hcycle, _⟩ := exists_cycle_before (fun _ => exists_stuck_before htake) hname
  exact ⟨start, hcycle⟩

/-! ### The schedule -/

theorem unresolved?_eq_none_iff : registry.unresolved? = none ↔ registry.Resolved := by
  simp only [unresolved?, List.find?_eq_none, List.mem_flatMap, List.mem_map, List.mem_filter,
    Resolved, names]
  constructor
  · intro h pass hmem henabled other hother
    simpa using h (pass.name, other) ⟨pass, ⟨hmem, henabled⟩, other, hother, rfl⟩
  · rintro h _ ⟨pass, ⟨hmem, henabled⟩, other, hother, rfl⟩
    simpa using h pass hmem henabled other hother

/-- The constraint that is found names a pass that is not registered. -/
theorem exists_of_unresolved?_eq_some {asking missing : String}
    (h : registry.unresolved? = some (asking, missing)) :
    ∃ pass ∈ registry, pass.enabled = true ∧ asking = pass.name ∧
      missing ∈ pass.after ++ pass.before ∧ missing ∉ registry.names := by
  have habsent := List.find?_some h
  obtain ⟨pass, hpass, hnamed⟩ := List.mem_flatMap.mp (List.mem_of_find?_eq_some h)
  obtain ⟨other, hother, heq⟩ := List.mem_map.mp hnamed
  obtain ⟨hmem, henabled⟩ := List.mem_filter.mp hpass
  cases heq
  exact ⟨pass, hmem, henabled, rfl, hother, by simpa [names] using habsent⟩

/-- The schedule tests names, then constraints, and then takes the enabled names. -/
theorem schedule_eq (registry : PassRegistry) :
    registry.schedule =
      match firstRepeat? registry.names, registry.unresolved? with
      | some name, _ => .error (.internal (.repeatedPass name))
      | none, some (asking, missing) => .error (.unknownPass asking missing)
      | none, none =>
        let taken :=
          takeReady registry.constraints registry.enabledNames.length registry.enabledNames
        if taken.2 = [] then .ok taken.1
        else .error (.cyclicPassDependency (dropFinal registry.leads taken.2.length taken.2)) :=
  scheduleWithin_eq registry.length_enabledNames_le

/-- A schedule is what is taken, one by one, from names that are distinct and resolved. -/
theorem schedule_eq_ok_iff :
    registry.schedule = .ok order ↔ registry.names.Nodup ∧ registry.Resolved ∧
      takeReady registry.constraints registry.enabledNames.length registry.enabledNames =
        (order, []) := by
  rw [schedule_eq, ← firstRepeat?_eq_none_iff, ← unresolved?_eq_none_iff, Prod.ext_iff]
  cases firstRepeat? registry.names with
  | some name => simp
  | none =>
    cases registry.unresolved? with
    | some named => simp
    | none =>
      dsimp only
      split
      · rename_i hstuck
        simp [hstuck]
      · rename_i hstuck
        simp [hstuck]

/-- A registry without a schedule has a repeated name, an unknown one, or a cycle, and the error
tells which. -/
theorem refusal_of_schedule {error : GraphError} (h : registry.schedule = .error error) :
    registry.Refusal error := by
  rw [schedule_eq] at h
  cases hrepeat : firstRepeat? registry.names with
  | some name =>
    rw [hrepeat] at h
    cases h
    exact .repeated (one_lt_count_of_firstRepeat? hrepeat)
  | none =>
    have hdistinct := (firstRepeat?_eq_none_iff _).mp hrepeat
    rw [hrepeat] at h
    cases hunknown : registry.unresolved? with
    | some named =>
      obtain ⟨asking, missing⟩ := named
      rw [hunknown] at h
      cases h
      obtain ⟨pass, hmem, henabled, rfl, hasked, habsent⟩ := exists_of_unresolved?_eq_some hunknown
      exact .unknown hdistinct hmem henabled hasked habsent
    | none =>
      rw [hunknown] at h
      dsimp only at h
      split at h
      · cases h
      · rename_i hstuck
        cases h
        obtain ⟨name, hcycle⟩ := exists_cycle_of_stuck rfl hstuck
        exact .cyclic hdistinct (unresolved?_eq_none_iff.mp hunknown) hcycle

/-- A schedule exists exactly if the names of all passes are distinct, those in constraints of
enabled passes are registered, and no enabled pass must come before itself. It is then the least
legal order by the places of registration. Otherwise the error tells what is wrong: a repeated
name first of all, then an unknown one, and a cycle last. Counting needs no more steps for it than
there are enabled passes, and further steps change nothing. -/
theorem schedule_exact (registry : PassRegistry) :
    (∀ steps, registry.enabledNames.length ≤ steps →
      registry.scheduleWithin steps = registry.schedule) ∧
    ((∃ order, registry.schedule = .ok order) ↔
      registry.names.Nodup ∧ registry.Resolved ∧ registry.Acyclic) ∧
    (∀ order, registry.schedule = .ok order → registry.Legal order ∧
      ∀ other, registry.Legal other →
        order = other ∨ List.Lex (· < ·) (order.map registry.place) (other.map registry.place)) ∧
    ∀ error, registry.schedule = .error error → registry.Refusal error := by
  have hlegal : ∀ order, registry.schedule = .ok order → registry.Legal order := by
    intro order horder
    obtain ⟨hdistinct, _, htake⟩ := schedule_eq_ok_iff.mp horder
    exact (legal_iff_takes hdistinct).mpr (takes_of_takeReady (Nat.le_refl _) htake)
  refine ⟨fun steps hsteps => (scheduleWithin_eq hsteps).trans registry.schedule_eq.symm, ⟨?_, ?_⟩,
    fun order horder => ⟨hlegal order horder, fun other hother => ?_⟩,
    fun error => refusal_of_schedule⟩
  · rintro ⟨order, horder⟩
    obtain ⟨hdistinct, hresolved, _⟩ := schedule_eq_ok_iff.mp horder
    exact ⟨hdistinct, hresolved, (hlegal order horder).acyclic⟩
  · rintro ⟨hdistinct, hresolved, hacyclic⟩
    cases hschedule : registry.schedule with
    | ok order => exact ⟨order, rfl⟩
    | error error =>
      cases refusal_of_schedule hschedule with
      | repeated twice => exact absurd hdistinct (by
          rw [List.nodup_iff_count_le_one]
          push Not
          exact ⟨_, twice⟩)
      | unknown _ mem enabled asked absent => exact absurd (hresolved _ mem enabled _ asked) absent
      | cyclic _ _ cycle => exact absurd cycle (hacyclic _)
  · obtain ⟨hdistinct, _, htake⟩ := schedule_eq_ok_iff.mp horder
    exact takeReady_least (pairwise_place hdistinct) htake ((legal_iff_takes hdistinct).mp hother)

end PassRegistry

end OpGraph
