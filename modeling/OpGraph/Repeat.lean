/-!
# Repeated elements

The first element of a list that has stood in it before. Lists of names without one
are free of repetitions.
-/

namespace OpGraph

variable {α : Type} [DecidableEq α]

/-- First element that is among those seen or repeats an earlier one. -/
def firstRepeatAfter? (seen : List α) : List α → Option α
  | [] => none
  | head :: tail => if head ∈ seen then some head else firstRepeatAfter? (head :: seen) tail

/-- First element that repeats an earlier one. -/
def firstRepeat? (items : List α) : Option α := firstRepeatAfter? [] items

/-- The search finds nothing exactly when the elements are new and distinct. -/
theorem firstRepeatAfter?_eq_none_iff (seen items : List α) :
    firstRepeatAfter? seen items = none ↔ items.Nodup ∧ ∀ x ∈ items, x ∉ seen := by
  induction items generalizing seen with
  | nil => simp [firstRepeatAfter?]
  | cons head tail ih =>
    by_cases hseen : head ∈ seen
    · simp [firstRepeatAfter?, hseen]
    · simp only [firstRepeatAfter?, hseen, if_false, ih, List.nodup_cons, List.mem_cons,
        forall_eq_or_imp, not_or, not_false_eq_true, true_and]
      constructor
      · rintro ⟨hnodup, hnew⟩
        exact ⟨⟨fun hmem => (hnew head hmem).1 rfl, hnodup⟩, fun x hx => (hnew x hx).2⟩
      · rintro ⟨⟨hhead, hnodup⟩, hnew⟩
        exact ⟨hnodup, fun x hx => ⟨fun heq => hhead (heq ▸ hx), hnew x hx⟩⟩

/-- A list has no repeated element exactly when its elements are distinct. -/
theorem firstRepeat?_eq_none_iff (items : List α) : firstRepeat? items = none ↔ items.Nodup := by
  simp [firstRepeat?, firstRepeatAfter?_eq_none_iff]

/-- A repeated element that is found stands twice, or is among those seen. -/
theorem mem_or_one_lt_count_of_firstRepeatAfter? {seen items : List α} {item : α}
    (h : firstRepeatAfter? seen items = some item) :
    item ∈ items ∧ (item ∈ seen ∨ 1 < items.count item) := by
  induction items generalizing seen with
  | nil => cases h
  | cons head tail ih =>
    unfold firstRepeatAfter? at h
    split at h
    · rename_i hseen
      cases h
      exact ⟨List.mem_cons_self, .inl hseen⟩
    · obtain ⟨hmem, hrepeated⟩ := ih h
      refine ⟨List.mem_cons_of_mem head hmem, ?_⟩
      have hpos : 0 < tail.count item := List.count_pos_iff.mpr hmem
      rcases hrepeated with hearlier | hcount
      · rcases List.mem_cons.mp hearlier with rfl | hseen
        · right
          rw [List.count_cons_self]
          omega
        · exact .inl hseen
      · right
        have hle := List.count_le_count_cons (a := item) (b := head) (l := tail)
        omega

/-- The first repeated element stands twice. -/
theorem one_lt_count_of_firstRepeat? {items : List α} {item : α}
    (h : firstRepeat? items = some item) : 1 < items.count item := by
  obtain ⟨_, hseen | htwice⟩ := mem_or_one_lt_count_of_firstRepeatAfter? h
  · cases hseen
  · exact htwice

/-- Where no element is repeated, later elements have later places. -/
theorem pairwise_idxOf_of_nodup {items : List α} (h : items.Nodup) :
    items.Pairwise fun first second => items.idxOf first < items.idxOf second := by
  rw [List.pairwise_iff_getElem]
  intro i j hi hj hlt
  rw [h.idxOf_getElem i hi, h.idxOf_getElem j hj]
  exact hlt

/-- Of what is not listed one more entry is taken off by each occurrence of the next listed element. -/
theorem countP_notMem_append_singleton {listed : List α} {next : α} (items : List α)
    (hnew : next ∉ listed) :
    items.countP (· ∉ listed) = items.count next + items.countP (· ∉ listed ++ [next]) := by
  induction items with
  | nil => rfl
  | cons head rest ih =>
    rw [List.countP_cons, List.count_cons, List.countP_cons, ih]
    by_cases hsame : head = next
    · simp [hsame, hnew]
      omega
    · simp [hsame]
      omega

end OpGraph
