import Mathlib.Data.List.Nodup
import OpGraph.Proofs.Edit.Outcome

/-!
# When edits succeed

An edit checks its request and fails if the graph at hand does not allow it. Here the success of an
edit is tied to a condition on the request alone, together with what holds afterwards. A loop
succeeds exactly if every item, in its turn, meets the condition of its round, which may speak of
the items before it.
-/

namespace OpGraph

/-! ### Conditions on items in their turn -/

section InTurn

variable {α κ : Type} {P Q : List α → α → Prop} {items : List α}

/-- Each item of a list meets a condition that may speak of the items before it. -/
def InTurn (P : List α → α → Prop) (items : List α) : Prop :=
  ∀ earlier item later, items = earlier ++ item :: later → P earlier item

theorem inTurn_nil : InTurn P [] := fun _ _ _ h => by simp at h

/-- The first item has no items before it, and is one of them for all others. -/
theorem inTurn_cons {item : α} :
    InTurn P (item :: items) ↔ P [] item ∧ InTurn (fun earlier => P (item :: earlier)) items := by
  constructor
  · exact fun h => ⟨h [] item items rfl, fun earlier other later hitems =>
      h (item :: earlier) other later (by rw [hitems, List.cons_append])⟩
  · rintro ⟨hfirst, hrest⟩ earlier other later hitems
    rcases List.cons_eq_append_iff.mp hitems with ⟨rfl, hcons⟩ | ⟨tail, rfl, htail⟩
    · cases hcons
      exact hfirst
    · exact hrest tail other later htail

theorem inTurn_and : InTurn (fun earlier item => P earlier item ∧ Q earlier item) items ↔
    InTurn P items ∧ InTurn Q items :=
  ⟨fun h => ⟨fun earlier item later hitems => (h earlier item later hitems).1,
    fun earlier item later hitems => (h earlier item later hitems).2⟩,
    fun h earlier item later hitems => ⟨h.1 earlier item later hitems, h.2 earlier item later hitems⟩⟩

/-- A condition that does not speak of other items is one on the members. -/
theorem inTurn_iff_forall_mem {P : α → Prop} :
    InTurn (fun _ item => P item) items ↔ ∀ item ∈ items, P item := by
  constructor
  · intro h item hitem
    obtain ⟨earlier, later, hitems⟩ := List.append_of_mem hitem
    exact h earlier item later hitems
  · rintro h earlier item later rfl
    exact h item (by simp)

/-- No key was seen before exactly if no key occurs twice, or among those seen at first. -/
theorem inTurn_notMem_iff (key : α → κ) (seen : List κ) (hseen : seen.Nodup) :
    InTurn (fun earlier item => key item ∉ seen ++ earlier.map key) items ↔
      (seen ++ items.map key).Nodup := by
  induction items generalizing seen with
  | nil => simpa using ⟨fun _ => hseen, fun _ => inTurn_nil⟩
  | cons item rest ih =>
    have hconcat : (seen ++ [key item]).Nodup ↔ key item ∉ seen := by
      rw [List.nodup_append_comm, List.singleton_append, List.nodup_cons]
      exact and_iff_left hseen
    have hshift : seen ++ (item :: rest).map key = (seen ++ [key item]) ++ rest.map key := by simp
    rw [inTurn_cons, hshift]
    simp only [List.map_nil, List.append_nil, List.map_cons]
    constructor
    · rintro ⟨hnew, hrest⟩
      refine (ih (seen ++ [key item]) (hconcat.mpr hnew)).mp fun earlier other later hitems => ?_
      simpa using hrest earlier other later hitems
    · intro hnodup
      have hfirst := (List.nodup_append.mp hnodup).1
      refine ⟨hconcat.mp hfirst, fun earlier other later hitems => ?_⟩
      simpa using (ih (seen ++ [key item]) hfirst).mpr hnodup earlier other later hitems

end InTurn

namespace Edit

variable {α β : Type} {edit : Edit α} {graph : Graph} {C D : Prop} {Q : α → Graph → Prop}

/-- On the graph the edit succeeds exactly under the condition, and then with the property. -/
structure SucceedsIff (edit : Edit α) (graph : Graph) (condition : Prop)
    (Q : α → Graph → Prop) : Prop where
  /-- Success tells that the condition was met. -/
  sound : ∀ {value result}, edit.run graph = .ok value result → condition ∧ Q value result
  /-- Where the condition is met the edit succeeds. -/
  complete : condition → ∃ value result, edit.run graph = .ok value result

namespace SucceedsIff

/-- The condition may be put in other words. -/
theorem of_iff (h : SucceedsIff edit graph C Q) (hcondition : C ↔ D) : SucceedsIff edit graph D Q where
  sound hrun := (h.sound hrun).imp hcondition.mp id
  complete hD := h.complete (hcondition.mpr hD)

/-- The property may be weakened. -/
theorem mono (h : SucceedsIff edit graph C Q) {R : α → Graph → Prop}
    (hweaken : ∀ value result, Q value result → R value result) : SucceedsIff edit graph C R where
  sound hrun := (h.sound hrun).imp id (hweaken _ _)
  complete hC := h.complete hC

/-- The property may be joined by one that is known of successful runs. -/
theorem and_of_run (h : SucceedsIff edit graph C Q) {R : α → Graph → Prop}
    (hrun : ∀ value result, edit.run graph = .ok value result → R value result) :
    SucceedsIff edit graph C fun value result => Q value result ∧ R value result where
  sound hok := (h.sound hok).imp id fun hQ => ⟨hQ, hrun _ _ hok⟩
  complete hC := h.complete hC

/-- In a sequence both conditions must be met. -/
theorem bind {f : α → Edit β} {R : β → Graph → Prop} (h : SucceedsIff edit graph C Q)
    (hf : ∀ value result, C → Q value result → SucceedsIff (f value) result D R) :
    SucceedsIff (edit >>= f) graph (C ∧ D) R where
  sound hrun := by
    obtain ⟨first, middle, hfirst, hrest⟩ := run_bind_eq_ok.mp hrun
    obtain ⟨hC, hQ⟩ := h.sound hfirst
    obtain ⟨hD, hR⟩ := (hf first middle hC hQ).sound hrest
    exact ⟨⟨hC, hD⟩, hR⟩
  complete := by
    rintro ⟨hC, hD⟩
    obtain ⟨first, middle, hfirst⟩ := h.complete hC
    obtain ⟨value, result, hrest⟩ := (hf first middle hC (h.sound hfirst).2).complete hD
    exact ⟨value, result, run_bind_eq_ok.mpr ⟨first, middle, hfirst, hrest⟩⟩

/-- An edit whose result is thrown away succeeds under the same condition. -/
theorem discard (h : SucceedsIff edit graph C Q) :
    SucceedsIff (discard edit) graph C fun _ result => ∃ value, Q value result where
  sound hrun := by
    obtain ⟨value, hedit⟩ := run_discard_eq_ok.mp hrun
    exact (h.sound hedit).imp id fun hQ => ⟨value, hQ⟩
  complete hC := by
    obtain ⟨value, result, hedit⟩ := h.complete hC
    exact ⟨PUnit.unit, result, run_discard_eq_ok.mpr ⟨value, hedit⟩⟩

end SucceedsIff

theorem succeedsIff_pure {value : α} (h : Q value graph) :
    SucceedsIff (pure value) graph True Q where
  sound hrun := by
    cases hrun
    exact ⟨trivial, h⟩
  complete _ := ⟨value, graph, rfl⟩

/-- A check that was made already passes on its result. -/
theorem succeedsIff_ofExcept_bind {outcome : Except GraphError α} {f : α → Edit β}
    {D : α → Prop} {R : β → Graph → Prop}
    (hf : ∀ value, outcome = .ok value → SucceedsIff (f value) graph (D value) R) :
    SucceedsIff (ofExcept outcome >>= f) graph (∃ value, outcome = .ok value ∧ D value) R where
  sound hrun := by
    obtain ⟨value, hvalue, hrest⟩ := run_ofExcept_bind_eq_ok.mp hrun
    exact ((hf value hvalue).sound hrest).imp (fun hD => ⟨value, hvalue, hD⟩) id
  complete := by
    rintro ⟨value, hvalue, hD⟩
    obtain ⟨next, result, hrest⟩ := (hf value hvalue).complete hD
    exact ⟨next, result, run_ofExcept_bind_eq_ok.mpr ⟨value, hvalue, hrest⟩⟩

/-- A fold succeeds exactly if each item meets the condition of its round in its turn. The
invariant speaks of the items done so far, from none to all. -/
theorem succeedsIff_foldlM {f : β → α → Edit β} {items : List α} {P : List α → α → Prop}
    {I : List α → β → Graph → Prop}
    (hround : ∀ earlier item later, items = earlier ++ item :: later → ∀ state graph,
      I earlier state graph → SucceedsIff (f state item) graph (P earlier item) (I (earlier ++ [item])))
    {start : β} (hstart : I [] start graph) :
    SucceedsIff (items.foldlM f start) graph (InTurn P items) (I items) := by
  suffices ∀ rest earlier, items = earlier ++ rest → ∀ state graph, I earlier state graph →
      SucceedsIff (rest.foldlM f state) graph (InTurn (fun done => P (earlier ++ done)) rest)
        (I items) from
    this items [] rfl start graph hstart
  intro rest
  induction rest with
  | nil =>
    intro earlier hitems state graph hI
    rw [List.append_nil] at hitems
    exact (succeedsIff_pure (hitems ▸ hI)).of_iff (iff_of_true trivial inTurn_nil)
  | cons item rest ih =>
    intro earlier hitems state graph hI
    rw [List.foldlM_cons]
    refine ((hround earlier item rest hitems state graph hI).bind fun next result _ hnext =>
      ih (earlier ++ [item]) (by simp [hitems]) next result hnext).of_iff ?_
    simp only [inTurn_cons, List.append_nil, List.append_assoc, List.singleton_append]

/-- A loop succeeds exactly if each item meets the condition of its round in its turn. -/
theorem succeedsIff_forM {f : α → Edit PUnit} {items : List α} {P : List α → α → Prop}
    {I : List α → Graph → Prop}
    (hround : ∀ earlier item later, items = earlier ++ item :: later → ∀ graph,
      I earlier graph →
        SucceedsIff (f item) graph (P earlier item) fun _ => I (earlier ++ [item]))
    (hstart : I [] graph) :
    SucceedsIff (items.forM f) graph (InTurn P items) fun _ => I items := by
  have hfold : items.forM f = items.foldlM (fun _ item => f item) PUnit.unit := by
    clear hround hstart
    induction items with
    | nil => rfl
    | cons item rest ih =>
      rw [List.foldlM_cons]
      exact bind_congr fun _ => ih
  rw [hfold]
  exact succeedsIff_foldlM (I := fun done _ => I done)
    (fun earlier item later hitems _ graph hI => hround earlier item later hitems graph hI) hstart

end Edit

end OpGraph
