import OpGraph.Proofs.View.Reading

/-!
# Changes of what is said of names

A view is changed name by name. Changes of different names can be made in any order, and the name
that a new node gets depends only on the names that grow from the one that is asked for.
-/

namespace OpGraph.View

variable {seen seen' : View} {name other base : String} {reading otherReading : Reading}
  {entries others : List (String × Reading)}

/-- Something else is said of one name. -/
def put (seen : View) (name : String) (reading : Reading) : View :=
  Function.update seen name (some reading)

@[simp] theorem put_self : seen.put name reading name = some reading := Function.update_self ..

theorem put_of_ne (h : other ≠ name) : seen.put name reading other = seen other :=
  Function.update_of_ne h ..

/-- Of what is said of one name the last counts. -/
@[simp] theorem put_put : (seen.put name reading).put name otherReading = seen.put name otherReading :=
  Function.update_idem ..

/-- Nothing changes if the same is said of a name as before. -/
theorem put_eq_self (h : seen name = some reading) : seen.put name reading = seen := by
  rw [put, ← h, Function.update_eq_self]

/-- Changes of two names can be made in any order. -/
theorem put_comm (h : name ≠ other) :
    (seen.put name reading).put other otherReading = (seen.put other otherReading).put name reading :=
  Function.update_comm h ..

/-- A name of which something is said keeps being one. -/
theorem isSome_put :
    (seen.put name reading other).isSome = (decide (other = name) || (seen other).isSome) := by
  by_cases h : other = name
  · simp [h]
  · simp [put_of_ne h, h]

/-- Something else is said of several names, one after another. -/
def putAll (seen : View) (entries : List (String × Reading)) : View :=
  entries.foldl (fun seen entry => seen.put entry.1 entry.2) seen

/-- Of other names the same is said as before. -/
theorem putAll_of_notMem (h : ∀ entry ∈ entries, entry.1 ≠ name) :
    seen.putAll entries name = seen name := by
  induction entries generalizing seen with
  | nil => rfl
  | cons head tail ih =>
    rw [List.forall_mem_cons] at h
    exact (ih h.2).trans (put_of_ne h.1.symm)

/-- Of a name that is among the changed ones one of the changes counts. -/
theorem exists_putAll_eq (seen : View) (h : ∃ entry ∈ entries, entry.1 = name) :
    ∃ reading, (name, reading) ∈ entries ∧ seen.putAll entries name = some reading := by
  induction entries generalizing seen with
  | nil =>
    obtain ⟨_, hmem, _⟩ := h
    exact absurd hmem List.not_mem_nil
  | cons head tail ih =>
    by_cases htail : ∃ entry ∈ tail, entry.1 = name
    · obtain ⟨reading, hmem, hnew⟩ := ih (seen.put head.1 head.2) htail
      exact ⟨reading, List.mem_cons_of_mem head hmem, hnew⟩
    · obtain ⟨entry, hmem, rfl⟩ := h
      rcases List.mem_cons.mp hmem with rfl | hrest
      · have hrest : ∀ other ∈ tail, other.1 ≠ entry.1 := fun other hother hsame =>
          htail ⟨other, hother, hsame⟩
        exact ⟨entry.2, List.mem_cons_self, (putAll_of_notMem hrest).trans put_self⟩
      · exact absurd ⟨entry, hrest, rfl⟩ htail

/-- What is said of a name was said before or comes from one of the changes. -/
theorem eq_or_mem_of_putAll (seen : View) (entries : List (String × Reading)) (name : String) :
    seen.putAll entries name = seen name ∨
      ∃ reading, (name, reading) ∈ entries ∧ seen.putAll entries name = some reading := by
  by_cases h : ∃ entry ∈ entries, entry.1 = name
  · exact .inr (exists_putAll_eq seen h)
  · exact .inl (putAll_of_notMem fun entry hentry hname => h ⟨entry, hentry, hname⟩)

/-- A change of a name that the other changes leave alone can be made first or last. -/
theorem putAll_put_comm (h : ∀ entry ∈ entries, entry.1 ≠ name) :
    (seen.put name reading).putAll entries = (seen.putAll entries).put name reading := by
  induction entries generalizing seen with
  | nil => rfl
  | cons head tail ih =>
    rw [List.forall_mem_cons] at h
    change ((seen.put name reading).put head.1 head.2).putAll tail = _
    rw [put_comm h.1.symm, ih h.2]
    rfl

/-- Changes of different names can be made in any order. -/
theorem putAll_comm (h : ∀ entry ∈ entries, ∀ other ∈ others, entry.1 ≠ other.1) :
    (seen.putAll entries).putAll others = (seen.putAll others).putAll entries := by
  induction others generalizing seen with
  | nil => rfl
  | cons head tail ih =>
    change ((seen.putAll entries).put head.1 head.2).putAll tail =
      ((seen.put head.1 head.2).putAll tail).putAll entries
    rw [← putAll_put_comm fun entry hentry => h entry hentry head List.mem_cons_self]
    exact ih fun entry hentry other hother => h entry hentry other (List.mem_cons_of_mem head hother)

/-! ### Free names -/

/-- Something is said of finitely many names. -/
def Bounded (seen : View) : Prop := {name | (seen name).isSome = true}.Finite

theorem Bounded.put (h : seen.Bounded) : (seen.put name reading).Bounded := by
  refine (Set.Finite.insert name h).subset fun other hother => ?_
  rw [Set.mem_ofPred_eq, isSome_put, Bool.or_eq_true, decide_eq_true_eq] at hother
  exact hother

theorem Bounded.putAll (h : seen.Bounded) : (seen.putAll entries).Bounded := by
  induction entries generalizing seen with
  | nil => exact h
  | cons head tail ih => exact ih h.put

/-- The name that a new node gets where this is said of the names. -/
noncomputable def fresh (seen : View) (base : String) : String :=
  firstFree (fun name => (seen name).isSome = true) base

theorem growsFrom_fresh (seen : View) (base : String) : GrowsFrom base (seen.fresh base) :=
  growsFrom_firstFree _ base

/-- Nothing is said of the name of a new node. -/
theorem Bounded.fresh_eq_none (h : seen.Bounded) (base : String) : seen (seen.fresh base) = none :=
  Option.not_isSome_iff_eq_none.mp (not_used_firstFree h base)

/-- The name of a new node depends on the names that grow from the one that is asked for. -/
theorem fresh_congr (h : ∀ name, GrowsFrom base name → (seen name).isSome = (seen' name).isSome) :
    seen.fresh base = seen'.fresh base :=
  firstFree_congr fun name hname => by rw [h name hname]

/-- What is said of a name that is in use already has no influence on the names of new nodes. -/
theorem fresh_put_of_isSome (h : (seen name).isSome = true) :
    (seen.put name reading).fresh base = seen.fresh base :=
  fresh_congr fun other _ => by
    rw [isSome_put]
    by_cases hother : other = name
    · rw [hother, h, Bool.or_true]
    · rw [decide_eq_false hother, Bool.false_or]

/-- What is said of a name that does not grow from the one that is asked for has no influence on
the name of the new node. -/
theorem fresh_put_of_not_growsFrom (h : ¬ GrowsFrom base name) :
    (seen.put name reading).fresh base = seen.fresh base :=
  fresh_congr fun other hother => by
    rw [put_of_ne]
    rintro rfl
    exact h hother

end OpGraph.View
