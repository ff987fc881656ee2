import Mathlib.Data.List.Forall2
import Mathlib.Tactic.Common
import OpGraph.Graph.Edit

/-!
# Outcomes of edits

An edit leaves a graph behind whether it succeeds or not. This module says what the building
blocks of edits do, how a property that every block keeps is kept by the whole edit, and how a
successful edit splits into its successful steps.
-/

namespace OpGraph

/-- A sequence of checks that succeeds consists of checks that succeed. -/
theorem Except.bind_eq_ok_iff {ε α β : Type} {first : Except ε α} {rest : α → Except ε β} {value : β} :
    (first >>= rest) = .ok value ↔ ∃ middle, first = .ok middle ∧ rest middle = .ok value := by
  cases first <;> simp [bind, Except.bind]

/-- A traversal that succeeds has one result for each item, at the place of the item. -/
theorem Except.mapM_eq_ok_iff {ε α β : Type} {f : α → Except ε β} {items : List α}
    {results : List β} : items.mapM f = .ok results ↔ results.length = items.length ∧
      ∀ (index : Nat) (item : α), items[index]? = some item →
        ∃ result, results[index]? = some result ∧ f item = .ok result := by
  induction items generalizing results with
  | nil =>
    rw [List.mapM_nil]
    constructor
    · intro h
      cases h
      exact ⟨rfl, fun _ _ hitem => by cases hitem⟩
    · rintro ⟨hlength, _⟩
      rw [List.length_eq_zero_iff.mp hlength]
      rfl
  | cons head tail ih =>
    rw [List.mapM_cons]
    simp only [Except.bind_eq_ok_iff, ih]
    constructor
    · rintro ⟨first, hfirst, rest, ⟨hlength, hrest⟩, hresults⟩
      cases hresults
      refine ⟨by rw [List.length_cons, List.length_cons, hlength], fun index item hitem => ?_⟩
      cases index with
      | zero =>
        cases hitem
        exact ⟨first, rfl, hfirst⟩
      | succ index => exact hrest index item hitem
    · rintro ⟨hlength, hall⟩
      obtain ⟨first, hfirst, hhead⟩ := hall 0 head rfl
      cases results with
      | nil => cases hfirst
      | cons _ rest =>
        cases hfirst
        refine ⟨first, hhead, rest, ⟨?_, fun index item hitem => ?_⟩, rfl⟩
        · simpa using hlength
        · exact hall (index + 1) item hitem

/-- A traversal succeeds exactly if all its items do, with their results. -/
theorem Except.mapM_eq_ok_iff_forall₂ {ε α β : Type} {f : α → Except ε β} {items : List α}
    {results : List β} :
    items.mapM f = .ok results ↔ List.Forall₂ (fun item result => f item = .ok result) items results := by
  rw [Except.mapM_eq_ok_iff, List.forall₂_iff_get]
  constructor
  · rintro ⟨hlength, hall⟩
    refine ⟨hlength.symm, fun index hitem hresult => ?_⟩
    obtain ⟨result, hfound, hf⟩ := hall index _ (List.getElem?_eq_getElem hitem)
    rw [List.getElem?_eq_getElem hresult, Option.some.injEq] at hfound
    rw [List.get_eq_getElem, List.get_eq_getElem, hfound, hf]
  · rintro ⟨hlength, hall⟩
    refine ⟨hlength.symm, fun index item hitem => ?_⟩
    obtain ⟨hlt, rfl⟩ := List.getElem?_eq_some_iff.mp hitem
    exact ⟨_, List.getElem?_eq_getElem (hlength ▸ hlt), hall index hlt (hlength ▸ hlt)⟩

namespace Edit

variable {α β : Type} {edit : Edit α} {graph result : Graph} {P : Graph → Prop}

/-- The graph that an edit leaves behind, on success as on failure. -/
def after (edit : Edit α) (graph : Graph) : Graph :=
  match edit.run graph with
  | .ok _ left => left
  | .error _ left => left

/-- On success the graph left behind is the one that comes with the result. -/
theorem after_of_run_ok {value : α} (h : edit.run graph = .ok value result) :
    edit.after graph = result := by
  simp only [after, h]

/-- On failure the graph left behind is the one that comes with the error. -/
theorem after_of_run_error {error : GraphError} (h : edit.run graph = .error error result) :
    edit.after graph = result := by
  simp only [after, h]

/-! ### Building blocks -/

/-- A check that was made already changes nothing. -/
@[simp] theorem run_ofExcept (outcome : Except GraphError α) (graph : Graph) :
    (ofExcept outcome).run graph =
      match outcome with
      | .ok value => .ok value graph
      | .error error => .error error graph := by
  cases outcome <;> rfl

/-- A check answers what its test says of the graph, and changes nothing. -/
@[simp] theorem run_check (test : Graph → Except GraphError α) (graph : Graph) :
    (check test).run graph =
      match test graph with
      | .ok value => .ok value graph
      | .error error => .error error graph := by
  change (ofExcept (test graph)).run graph = _
  rw [run_ofExcept]

/-- A successful sequence is a successful first part followed by a successful rest. -/
theorem run_bind_eq_ok {f : α → Edit β} {value : β} :
    (edit >>= f).run graph = .ok value result ↔
      ∃ first middle, edit.run graph = .ok first middle ∧ (f first).run middle = .ok value result := by
  rw [EStateM.run_bind]
  cases edit.run graph <;> simp

/-- A check succeeds with what its test says, on the graph as it is. -/
theorem run_check_eq_ok {test : Graph → Except GraphError α} {value : α} :
    (check test).run graph = .ok value result ↔ test graph = .ok value ∧ graph = result := by
  rw [run_check]
  cases test graph <;> simp

/-- A check that was made already succeeds with its result, on the graph as it is. -/
theorem run_ofExcept_eq_ok {outcome : Except GraphError α} {value : α} :
    (ofExcept outcome).run graph = .ok value result ↔ outcome = .ok value ∧ graph = result := by
  rw [run_ofExcept]
  cases outcome <;> simp

/-- A check that starts a sequence passes on the graph as it is. -/
theorem run_check_bind_eq_ok {test : Graph → Except GraphError α} {f : α → Edit β} {value : β} :
    (check test >>= f).run graph = .ok value result ↔
      ∃ first, test graph = .ok first ∧ (f first).run graph = .ok value result := by
  simp only [run_bind_eq_ok, run_check_eq_ok]
  constructor
  · rintro ⟨first, _, ⟨htest, rfl⟩, hrest⟩
    exact ⟨first, htest, hrest⟩
  · rintro ⟨first, htest, hrest⟩
    exact ⟨first, graph, ⟨htest, rfl⟩, hrest⟩

/-- A check that was made already and starts a sequence has passed. -/
theorem run_ofExcept_bind_eq_ok {outcome : Except GraphError α} {f : α → Edit β} {value : β} :
    (ofExcept outcome >>= f).run graph = .ok value result ↔
      ∃ first, outcome = .ok first ∧ (f first).run graph = .ok value result := by
  simp only [run_bind_eq_ok, run_ofExcept_eq_ok]
  constructor
  · rintro ⟨first, _, ⟨houtcome, rfl⟩, hrest⟩
    exact ⟨first, houtcome, hrest⟩
  · rintro ⟨first, houtcome, hrest⟩
    exact ⟨first, graph, ⟨houtcome, rfl⟩, hrest⟩

/-- An edit whose result is thrown away succeeds when it succeeds with some result. -/
theorem run_discard_eq_ok {value : PUnit} :
    (discard edit).run graph = .ok value result ↔ ∃ first, edit.run graph = .ok first result := by
  change (edit >>= fun _ => pure PUnit.unit).run graph = _ ↔ _
  rw [run_bind_eq_ok]
  constructor
  · rintro ⟨first, middle, hedit, hpure⟩
    cases hpure
    exact ⟨first, hedit⟩
  · rintro ⟨first, hedit⟩
    exact ⟨first, result, hedit, rfl⟩

/-- After a successful first part a sequence leaves behind what the rest leaves behind. -/
theorem after_bind_of_ok {f : α → Edit β} {value : α} (h : edit.run graph = .ok value result) :
    (edit >>= f).after graph = (f value).after result := by
  unfold after
  rw [EStateM.run_bind, h]

/-- After a failed first part a sequence leaves behind what the first part leaves behind. -/
theorem after_bind_of_error {f : α → Edit β} {error : GraphError}
    (h : edit.run graph = .error error result) : (edit >>= f).after graph = result := by
  unfold after
  rw [EStateM.run_bind, h]

/-! ### Kept properties -/

/-- The property holds after the edit whenever it held before, also when the edit fails. -/
def Keeps (P : Graph → Prop) (edit : Edit α) : Prop := ∀ graph, P graph → P (edit.after graph)

theorem keeps_pure (value : α) : Keeps P (pure value : Edit α) := fun _ h => h

theorem keeps_throw (error : GraphError) : Keeps P (throw error : Edit α) := fun _ h => h

theorem keeps_ofExcept (outcome : Except GraphError α) : Keeps P (ofExcept outcome) := by
  cases outcome with
  | ok value => exact keeps_pure value
  | error error => exact keeps_throw error

/-- After a check that was made already only its success has to be looked at. -/
theorem keeps_ofExcept_bind {outcome : Except GraphError α} {f : α → Edit β}
    (hf : ∀ value, outcome = .ok value → Keeps P (f value)) : Keeps P (ofExcept outcome >>= f) := by
  cases outcome with
  | ok value => exact hf value rfl
  | error error => exact fun _ h => h

/-- A check keeps everything. -/
theorem keeps_check (test : Graph → Except GraphError α) : Keeps P (check test) := fun graph h => by
  change P ((ofExcept (test graph)).after graph)
  exact keeps_ofExcept (test graph) graph h

/-- What both parts of a sequence keep, the sequence keeps. -/
theorem keeps_bind {f : α → Edit β} (hedit : Keeps P edit) (hf : ∀ value, Keeps P (f value)) :
    Keeps P (edit >>= f) := by
  intro graph h
  have hfirst := hedit graph h
  cases hrun : edit.run graph with
  | ok value middle =>
    rw [after_of_run_ok hrun] at hfirst
    rw [after_bind_of_ok hrun]
    exact hf value middle hfirst
  | error error middle =>
    rw [after_of_run_error hrun] at hfirst
    rw [after_bind_of_error hrun]
    exact hfirst

/-- Reading the graph keeps what the rest keeps on the graph that was read. -/
theorem keeps_get_bind {f : Graph → Edit α} (hf : ∀ graph, P graph → P ((f graph).after graph)) :
    Keeps P (get >>= f) := hf

/-- Throwing the result of an edit away keeps what the edit keeps. -/
theorem keeps_discard (hedit : Keeps P edit) : Keeps P (discard edit) :=
  keeps_bind hedit fun _ => keeps_pure PUnit.unit

/-- A loop keeps what every round keeps. -/
theorem keeps_forM {f : α → Edit PUnit} {items : List α} (hf : ∀ item ∈ items, Keeps P (f item)) :
    Keeps P (items.forM f) := by
  induction items with
  | nil => exact keeps_pure PUnit.unit
  | cons head tail ih =>
    refine keeps_bind (hf head (by simp)) fun _ => ?_
    exact ih fun item hitem => hf item (List.mem_cons_of_mem head hitem)

/-- A fold keeps what every round keeps. -/
theorem keeps_foldlM {f : β → α → Edit β} {items : List α}
    (hf : ∀ item ∈ items, ∀ state, Keeps P (f state item)) (start : β) :
    Keeps P (items.foldlM f start) := by
  induction items generalizing start with
  | nil => exact keeps_pure start
  | cons head tail ih =>
    rw [List.foldlM_cons]
    refine keeps_bind (hf head (by simp) start) fun next => ?_
    exact ih (fun item hitem => hf item (List.mem_cons_of_mem head hitem)) next

/-- A traversal keeps what every round keeps. -/
theorem keeps_mapM {f : α → Edit β} {items : List α} (hf : ∀ item ∈ items, Keeps P (f item)) :
    Keeps P (items.mapM f) := by
  induction items with
  | nil => rw [List.mapM_nil]; exact keeps_pure []
  | cons head tail ih =>
    rw [List.mapM_cons]
    refine keeps_bind (hf head (by simp)) fun first => ?_
    refine keeps_bind (ih fun item hitem => hf item (List.mem_cons_of_mem head hitem)) fun rest => ?_
    exact keeps_pure (first :: rest)

/-! ### Atomic edits -/

/-- A failed run of the edit leaves the graph as it was. -/
def Atomic (edit : Edit α) : Prop :=
  ∀ graph error result, edit.run graph = .error error result → result = graph

theorem atomic_pure (value : α) : Atomic (pure value : Edit α) := fun _ _ _ h => by cases h

theorem atomic_throw (error : GraphError) : Atomic (throw error : Edit α) := fun _ _ _ h => by
  cases h
  rfl

/-- A change that cannot fail, followed by an answer, is atomic. -/
theorem atomic_modify_bind {f : Graph → Graph} {g : PUnit → Edit α}
    (hg : ∀ graph error result, (g ⟨⟩).run graph ≠ .error error result) :
    Atomic (modify f >>= g) := fun graph error result h =>
  absurd h (hg (f graph) error result)

/-- A check changes nothing, so it can precede every atomic edit. -/
theorem atomic_check_bind {test : Graph → Except GraphError α} {f : α → Edit β}
    (hf : ∀ value, Atomic (f value)) : Atomic (check test >>= f) := by
  intro graph error result h
  rw [EStateM.run_bind, run_check] at h
  cases htest : test graph with
  | ok value =>
    rw [htest] at h
    exact hf value graph error result h
  | error _ =>
    rw [htest] at h
    cases h
    rfl

/-- Reading the graph changes nothing, so it can precede every atomic edit. -/
theorem atomic_get_bind {f : Graph → Edit α} (hf : ∀ graph, Atomic (f graph)) :
    Atomic (get >>= f) := fun graph => hf graph graph

theorem atomic_ite {condition : Prop} [Decidable condition] {first second : Edit α}
    (hfirst : Atomic first) (hsecond : Atomic second) :
    Atomic (if condition then first else second) := by
  split
  · exact hfirst
  · exact hsecond

/-- An atomic edit keeps what its successful runs keep. -/
theorem Atomic.keeps (hedit : Atomic edit)
    (hok : ∀ graph value result, P graph → edit.run graph = .ok value result → P result) :
    Keeps P edit := by
  intro graph h
  cases hrun : edit.run graph with
  | ok value result =>
    rw [after_of_run_ok hrun]
    exact hok graph value result h hrun
  | error error result =>
    rw [after_of_run_error hrun, hedit graph error result hrun]
    exact h

/-! ### Conditions before and after -/

/-- From a graph with the first property every successful run ends with the second one. -/
def Ensures (P : Graph → Prop) (edit : Edit α) (Q : α → Graph → Prop) : Prop :=
  ∀ graph value result, P graph → edit.run graph = .ok value result → Q value result

variable {Q : α → Graph → Prop} {R : β → Graph → Prop}

/-- What an edit keeps its successful runs ensure. -/
theorem Keeps.ensures (h : Keeps P edit) : Ensures P edit fun _ => P :=
  fun graph value result hP hrun => by
    have hkept := h graph hP
    rwa [after_of_run_ok hrun] at hkept

theorem ensures_pure {value : α} (h : ∀ graph, P graph → Q value graph) :
    Ensures P (pure value) Q := fun graph _ _ hP hrun => by
  cases hrun
  exact h graph hP

/-- A check tells that its test passes. -/
theorem ensures_check {test : Graph → Except GraphError α}
    (h : ∀ graph value, P graph → test graph = .ok value → Q value graph) :
    Ensures P (check test) Q := fun graph value _ hP hrun => by
  obtain ⟨htest, rfl⟩ := run_check_eq_ok.mp hrun
  exact h graph value hP htest

/-- A check that was made already tells that it passed. -/
theorem ensures_ofExcept {outcome : Except GraphError α}
    (h : ∀ graph value, P graph → outcome = .ok value → Q value graph) :
    Ensures P (ofExcept outcome) Q := fun graph value _ hP hrun => by
  obtain ⟨houtcome, rfl⟩ := run_ofExcept_eq_ok.mp hrun
  exact h graph value hP houtcome

/-- What the first part ensures the rest may start from. -/
theorem ensures_bind {f : α → Edit β} (hedit : Ensures P edit Q)
    (hf : ∀ value, Ensures (Q value) (f value) R) : Ensures P (edit >>= f) R := by
  intro graph value result hP hrun
  obtain ⟨first, middle, hfirst, hrest⟩ := run_bind_eq_ok.mp hrun
  exact hf first middle value result (hedit graph first middle hP hfirst) hrest

/-- Reading the graph lets the rest start from the graph that was read. -/
theorem ensures_get_bind {f : Graph → Edit α}
    (hf : ∀ graph, P graph → Ensures (· = graph) (f graph) Q) : Ensures P (get >>= f) Q :=
  fun graph value result hP hrun => hf graph hP graph value result rfl hrun

theorem ensures_discard {Q : Graph → Prop} (hedit : Ensures P edit fun _ => Q) :
    Ensures P (discard edit) fun _ => Q := fun graph _ result hP hrun => by
  obtain ⟨value, hrun⟩ := run_discard_eq_ok.mp hrun
  exact hedit graph value result hP hrun

/-- A loop ensures what every round keeps. -/
theorem ensures_forM {f : α → Edit PUnit} {items : List α}
    (hf : ∀ item ∈ items, Ensures P (f item) fun _ => P) :
    Ensures P (items.forM f) fun _ => P := by
  induction items with
  | nil => exact ensures_pure fun _ h => h
  | cons head tail ih =>
    refine ensures_bind (hf head (by simp)) fun _ => ?_
    exact ih fun item hitem => hf item (List.mem_cons_of_mem head hitem)

/-- A fold ensures what every round keeps. -/
theorem ensures_foldlM {f : β → α → Edit β} {items : List α}
    (hf : ∀ item ∈ items, ∀ state, Ensures P (f state item) fun _ => P) (start : β) :
    Ensures P (items.foldlM f start) fun _ => P := by
  induction items generalizing start with
  | nil => exact ensures_pure fun _ h => h
  | cons head tail ih =>
    rw [List.foldlM_cons]
    refine ensures_bind (hf head (by simp) start) fun next => ?_
    exact ih (fun item hitem => hf item (List.mem_cons_of_mem head hitem)) next

/-- A traversal ensures what every round keeps. -/
theorem ensures_mapM {f : α → Edit β} {items : List α}
    (hf : ∀ item ∈ items, Ensures P (f item) fun _ => P) :
    Ensures P (items.mapM f) fun _ => P := by
  induction items with
  | nil =>
    rw [List.mapM_nil]
    exact ensures_pure fun _ h => h
  | cons head tail ih =>
    rw [List.mapM_cons]
    refine ensures_bind (hf head (by simp)) fun first => ?_
    refine ensures_bind (ih fun item hitem => hf item (List.mem_cons_of_mem head hitem)) fun _ => ?_
    exact ensures_pure fun _ h => h

end Edit

end OpGraph
