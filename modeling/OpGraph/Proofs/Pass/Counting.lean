import OpGraph.Pass.Schedule
import Mathlib.Data.List.Nodup
import Mathlib.Data.List.Perm.Basic

/-!
# A schedule by counting

The passes are scheduled by counting how many passes must come before each of them. Whether a pass
is ready can also be told without a count: none of the passes that remain must precede it. Both
ways take the same passes in the same order. The number of a place is the number of places before
it that have not been taken, so that no number is taken off in vain, and a place becomes ready when
the last of them is taken, and only once.
-/

namespace OpGraph.PassRegistry

variable {α β : Type} {constraints : List (α × α)} {remaining : List α} {steps : Nat}

/-! ### Items and their images -/

/-- One round of dropping. -/
theorem dropFinal_succ (leads : α → α → Bool) (steps : Nat) (remaining : List α) :
    dropFinal leads (steps + 1) remaining =
      let kept := remaining.filter fun item => remaining.any (leads item)
      if kept.length = remaining.length then remaining else dropFinal leads steps kept := rfl

/-- Elements are dropped, and the order of the others stays. -/
theorem dropFinal_sublist {leads : α → α → Bool} :
    (dropFinal leads steps remaining).Sublist remaining := by
  induction steps generalizing remaining with
  | zero => exact List.Sublist.refl _
  | succ steps ih =>
    rw [dropFinal_succ]
    dsimp only
    split
    · exact List.Sublist.refl _
    · exact ih.trans List.filter_sublist

/-- Elements are dropped as their images are. -/
theorem dropFinal_map {f : α → β} {before : α → α → Bool} {after : β → β → Bool} {items : List α}
    (hsame : ∀ first ∈ items, ∀ second ∈ items, after (f first) (f second) = before first second) :
    dropFinal after steps (items.map f) = (dropFinal before steps items).map f := by
  induction steps generalizing items with
  | zero => rfl
  | succ steps ih =>
    have hkept : ((items.map f).filter fun item => (items.map f).any (after item)) =
        (items.filter fun item => items.any (before item)).map f := by
      rw [List.filter_map]
      refine congrArg (List.map f) (List.filter_congr fun item hitem => ?_)
      rw [Function.comp_apply, List.any_map, Bool.eq_iff_iff, List.any_eq_true, List.any_eq_true]
      exact exists_congr fun other => and_congr_right fun hother => by
        rw [Function.comp_apply, hsame item hitem other hother]
    simp only [dropFinal_succ, hkept, List.length_map]
    split
    · rfl
    · exact ih fun first hfirst second hsecond =>
        hsame first (List.mem_filter.mp hfirst).1 second (List.mem_filter.mp hsecond).1

/-- Where items have distinct images a constraint between images is the image of a constraint. -/
theorem mem_map_prodMap_iff {f : α → β} {items : List α} {first second : α}
    (hinj : ∀ first ∈ items, ∀ second ∈ items, f first = f second → first = second)
    (hconstraints : ∀ ends ∈ constraints, ends.1 ∈ items ∧ ends.2 ∈ items)
    (hfirst : first ∈ items) (hsecond : second ∈ items) :
    (f first, f second) ∈ constraints.map (Prod.map f f) ↔ (first, second) ∈ constraints := by
  rw [List.mem_map]
  constructor
  · rintro ⟨ends, hends, heq⟩
    obtain ⟨hone, htwo⟩ := hconstraints ends hends
    obtain ⟨hfst, hsnd⟩ := Prod.mk.injEq .. ▸ heq
    rw [← hinj _ hone _ hfirst hfst, ← hinj _ htwo _ hsecond hsnd]
    exact hends
  · exact fun hends => ⟨_, hends, rfl⟩

variable [DecidableEq α] [DecidableEq β] {item : α}

/-! ### Taking the first item that is ready -/

/-- Nothing that remains must come before. -/
def isReady (constraints : List (α × α)) (remaining : List α) (item : α) : Bool :=
  remaining.all fun other => !constraints.contains (other, item)

/-- Take the first item that is ready again and again, at most `steps` times; the items that were
taken, in order, and those that remain. -/
def takeReady (constraints : List (α × α)) : Nat → List α → List α × List α
  | 0, remaining => ([], remaining)
  | steps + 1, remaining =>
    match remaining.find? (isReady constraints remaining) with
    | none => ([], remaining)
    | some item =>
      let (order, stuck) := takeReady constraints steps (remaining.erase item)
      (item :: order, stuck)

theorem isReady_iff :
    isReady constraints remaining item = true ↔
      ∀ other ∈ remaining, (other, item) ∉ constraints := by
  simp [isReady]

/-- One step of the search for an order. -/
theorem takeReady_succ (constraints : List (α × α)) (steps : Nat) (remaining : List α) :
    takeReady constraints (steps + 1) remaining =
      match remaining.find? (isReady constraints remaining) with
      | none => ([], remaining)
      | some item =>
        (item :: (takeReady constraints steps (remaining.erase item)).1,
          (takeReady constraints steps (remaining.erase item)).2) := rfl

/-- Every item is taken or remains. -/
theorem takeReady_perm (constraints : List (α × α)) (steps : Nat) (remaining : List α) :
    ((takeReady constraints steps remaining).1 ++
      (takeReady constraints steps remaining).2).Perm remaining := by
  induction steps generalizing remaining with
  | zero => exact .refl _
  | succ steps ih =>
    rw [takeReady_succ]
    split
    · exact .refl _
    · rename_i item hfind
      exact ((ih _).cons item).trans (List.perm_cons_erase (List.mem_of_find?_eq_some hfind)).symm

/-- What remains keeps its order. -/
theorem takeReady_snd (hnodup : remaining.Nodup) :
    (takeReady constraints steps remaining).2 =
      remaining.filter fun item => !(takeReady constraints steps remaining).1.contains item := by
  induction steps generalizing remaining with
  | zero => simp [takeReady]
  | succ steps ih =>
    rw [takeReady_succ]
    split
    · simp
    · rename_i item _
      dsimp only
      rw [ih (hnodup.erase item), hnodup.erase_eq_filter, List.filter_filter]
      refine List.filter_congr fun other _ => ?_
      rw [List.contains_cons, Bool.not_or, Bool.and_comm]
      rfl

/-- With a step for each item further steps do nothing. -/
theorem takeReady_add (hsteps : remaining.length ≤ steps) (more : Nat) :
    takeReady constraints (steps + more) remaining = takeReady constraints steps remaining := by
  induction steps generalizing remaining with
  | zero =>
    have hnil : remaining = [] := List.length_eq_zero_iff.mp (Nat.le_zero.mp hsteps)
    subst hnil
    cases more <;> rfl
  | succ steps ih =>
    rw [Nat.add_right_comm, takeReady_succ, takeReady_succ]
    split
    · rfl
    · rename_i item hfind
      have hlength := List.length_erase_of_mem (List.mem_of_find?_eq_some hfind)
      rw [ih (by omega)]

/-- Where items have distinct images the images are taken as the items are. -/
theorem takeReady_map {f : α → β} {items : List α}
    (hinj : ∀ first ∈ items, ∀ second ∈ items, f first = f second → first = second)
    (hconstraints : ∀ ends ∈ constraints, ends.1 ∈ items ∧ ends.2 ∈ items)
    (hremaining : ∀ item ∈ remaining, item ∈ items) (hnodup : remaining.Nodup) :
    takeReady (constraints.map (Prod.map f f)) steps (remaining.map f) =
      Prod.map (List.map f) (List.map f) (takeReady constraints steps remaining) := by
  induction steps generalizing remaining with
  | zero => rfl
  | succ steps ih =>
    have hready : ∀ item ∈ remaining,
        isReady (constraints.map (Prod.map f f)) (remaining.map f) (f item) =
          isReady constraints remaining item := by
      intro item hitem
      rw [Bool.eq_iff_iff, isReady_iff, isReady_iff, List.forall_mem_map]
      exact forall₂_congr fun other hother =>
        not_congr (mem_map_prodMap_iff hinj hconstraints (hremaining other hother)
          (hremaining item hitem))
    have hfind : (remaining.map f).find?
        (isReady (constraints.map (Prod.map f f)) (remaining.map f)) =
        (remaining.find? (isReady constraints remaining)).map f := by
      rw [List.find?_map, ← List.head?_filter, ← List.head?_filter]
      exact congrArg (fun items => items.head?.map f) (List.filter_congr hready)
    rw [takeReady_succ, takeReady_succ, hfind]
    cases hfirst : remaining.find? (isReady constraints remaining) with
    | none => rfl
    | some item =>
      have hitem := List.mem_of_find?_eq_some hfirst
      have hinjRemaining : ∀ first ∈ remaining, ∀ second ∈ remaining,
          f first = f second → first = second :=
        fun first hone second htwo => hinj _ (hremaining _ hone) _ (hremaining _ htwo)
      have herase : (remaining.map f).erase (f item) = (remaining.erase item).map f := by
        rw [(hnodup.map_on hinjRemaining).erase_eq_filter, hnodup.erase_eq_filter, List.filter_map]
        refine congrArg (List.map f) (List.filter_congr fun other hother => ?_)
        rw [Bool.eq_iff_iff, Function.comp_apply, bne_iff_ne, bne_iff_ne]
        exact not_congr ⟨hinjRemaining _ hother _ hitem, congrArg f⟩
      dsimp only [Option.map_some]
      rw [herase, ih (fun other hother => hremaining other (List.mem_of_mem_erase hother))
        (hnodup.erase item)]
      rfl

/-! ### Links between places -/

/-- One entry of a list is changed, if there is such an entry. -/
theorem getD_modify {γ : Type} (items : List γ) (index other : Nat) (f : γ → γ) (default : γ) :
    (items.modify index f).getD other default =
      if index = other ∧ other < items.length then f (items.getD other default)
      else items.getD other default := by
  rw [List.getD_eq_getElem?_getD, List.getD_eq_getElem?_getD, List.getElem?_modify]
  by_cases hother : other < items.length
  · by_cases hsame : index = other <;> simp [hother, hsame]
  · simp [hother]

namespace Links

variable {links : Links} {count first second : Nat} {pairs : List (Nat × Nat)}

/-- Places that must come before a place, each of them once. -/
def before (links : Links) (count place : Nat) : List Nat :=
  (List.range count).filter fun other => (links.after other).contains place

/-- The links of so many places say of them what pairs of places say. -/
structure Records (links : Links) (count : Nat) (pairs : List (Nat × Nat)) : Prop where
  /-- Every place has its list. -/
  length_successors : links.successors.length = count
  /-- Every place has its number. -/
  length_inDegrees : links.inDegrees.length = count
  /-- The second place of a pair must come after the first one. -/
  mem_after : ∀ first second, second ∈ links.after first ↔ (first, second) ∈ pairs
  /-- No place is listed twice, however often the pairs ask for it. -/
  nodup_after : ∀ place, (links.after place).Nodup
  /-- The number of a place counts the places before it. -/
  inDegree : ∀ place, links.inDegrees.getD place 0 = (links.before count place).length

theorem nodup_before (links : Links) (count place : Nat) : (links.before count place).Nodup :=
  List.nodup_range.filter _

theorem mem_before_iff {place other : Nat} :
    other ∈ links.before count place ↔ other < count ∧ place ∈ links.after other := by
  simp [before]

theorem after_unconstrained (count place : Nat) : (unconstrained count).after place = [] := by
  rw [after, unconstrained, List.getD_eq_getElem?_getD, List.getElem?_replicate]
  split <;> rfl

/-- Without pairs there are no links. -/
theorem records_unconstrained (count : Nat) : (unconstrained count).Records count [] where
  length_successors := List.length_replicate
  length_inDegrees := List.length_replicate
  mem_after first second := by simp [after_unconstrained]
  nodup_after place := by simp [after_unconstrained]
  inDegree place := by
    have hnone : (unconstrained count).before count place = [] := by
      simp [before, after_unconstrained]
    rw [hnone, unconstrained, List.getD_eq_getElem?_getD, List.getElem?_replicate]
    split <;> rfl

/-- A new link stands last at the first place. -/
theorem Records.after_add (h : links.Records count pairs) (hfirst : first < count)
    (hnew : second ∉ links.after first) (place : Nat) :
    (links.add first second).after place =
      links.after place ++ if first = place then [second] else [] := by
  rw [add, if_neg (by simpa using hnew), after, getD_modify, h.length_successors]
  by_cases hsame : first = place
  · subst hsame
    simp [hfirst, after]
  · simp [hsame, after]

/-- A new link puts the first place before the second one. -/
theorem Records.before_add_perm (h : links.Records count pairs) (hfirst : first < count)
    (hnew : second ∉ links.after first) (place : Nat) :
    ((links.add first second).before count place).Perm
      ((if second = place then [first] else []) ++ links.before count place) := by
  refine (List.perm_ext_iff_of_nodup (nodup_before _ _ _) ?_).mpr fun other => ?_
  · by_cases hsame : second = place
    · subst hsame
      rw [if_pos rfl, List.singleton_append, List.nodup_cons, mem_before_iff]
      exact ⟨fun hbefore => hnew hbefore.2, nodup_before _ _ _⟩
    · rw [if_neg hsame]
      exact nodup_before _ _ _
  · rw [mem_before_iff, h.after_add hfirst hnew, List.mem_append, List.mem_append, mem_before_iff]
    by_cases hother : first = other
    · subst hother
      by_cases hsame : second = place <;> simp [hfirst, hsame, eq_comm]
    · by_cases hsame : second = place <;> simp [hother, hsame, Ne.symm hother]

/-- A new link counts at the second place. -/
theorem Records.inDegree_add (h : links.Records count pairs) (hsecond : second < count)
    (hnew : second ∉ links.after first) (place : Nat) :
    (links.add first second).inDegrees.getD place 0 =
      (if second = place then 1 else 0) + links.inDegrees.getD place 0 := by
  rw [add, if_neg (by simpa using hnew), getD_modify, h.length_inDegrees]
  by_cases hsame : second = place
  · subst hsame
    simp [hsecond, Nat.add_comm]
  · simp [hsame]

/-- One more pair is recorded, or it is on record already. -/
theorem Records.add (h : links.Records count pairs) (hfirst : first < count)
    (hsecond : second < count) :
    (links.add first second).Records count (pairs ++ [(first, second)]) := by
  by_cases hnew : second ∈ links.after first
  · have hsame : links.add first second = links := by
      rw [Links.add, if_pos (by simpa using hnew)]
    rw [hsame]
    refine { h with mem_after := fun one two => ?_ }
    rw [h.mem_after, List.mem_append, List.mem_singleton]
    refine ⟨.inl, Or.rec id fun heq => ?_⟩
    cases heq
    exact (h.mem_after _ _).mp hnew
  · have hafter := h.after_add hfirst hnew
    have hadd : links.add first second =
        ⟨links.successors.modify first (· ++ [second]), links.inDegrees.modify second (· + 1)⟩ := by
      rw [Links.add, if_neg (by simpa using hnew)]
    constructor
    case length_successors => rw [hadd, List.length_modify, h.length_successors]
    case length_inDegrees => rw [hadd, List.length_modify, h.length_inDegrees]
    case mem_after =>
      intro one two
      rw [hafter, List.mem_append, h.mem_after, List.mem_append, List.mem_singleton, Prod.mk.injEq]
      refine or_congr_right ?_
      by_cases hsame : first = one
      · simp [hsame]
      · simp [hsame, Ne.symm hsame]
    case nodup_after =>
      intro place
      rw [hafter]
      by_cases hsame : first = place
      · subst hsame
        rw [if_pos rfl, ← List.concat_eq_append]
        exact (h.nodup_after first).concat hnew
      · rw [if_neg hsame, List.append_nil]
        exact h.nodup_after place
    case inDegree =>
      intro place
      rw [h.inDegree_add hsecond hnew, h.inDegree, (h.before_add_perm hfirst hnew place).length_eq,
        List.length_append]
      split <;> rfl

/-- All pairs of a list are recorded. -/
theorem records_foldl (hpairs : ∀ ends ∈ pairs, ends.1 < count ∧ ends.2 < count) :
    (pairs.foldl (fun links ends => links.add ends.1 ends.2) (unconstrained count)).Records count
      pairs := by
  suffices ∀ links done, Records links count done →
      (pairs.foldl (fun links ends => links.add ends.1 ends.2) links).Records count
        (done ++ pairs) from this _ [] (records_unconstrained count)
  induction pairs with
  | nil =>
    intro links done h
    rw [List.append_nil]
    exact h
  | cons ends rest ih =>
    intro links done h
    obtain ⟨hfirst, hsecond⟩ := hpairs ends List.mem_cons_self
    rw [List.append_cons]
    exact ih (fun other hother => hpairs other (List.mem_cons_of_mem ends hother)) _ _
      (h.add hfirst hsecond)

end Links

/-! ### One place after another -/

variable {links : Links} {count place : Nat} {pairs : List (Nat × Nat)}
  {enabled inDegrees ready taken : List Nat}

/-- Counting down distinct places takes one off each of them, and those become ready of which no
more was left. -/
theorem foldl_countDown {places : List Nat} (hnodup : places.Nodup) (inDegrees ready : List Nat) :
    (∀ place, (places.foldl countDown (inDegrees, ready)).1.getD place 0 =
      inDegrees.getD place 0 - if place ∈ places then 1 else 0) ∧
    (places.foldl countDown (inDegrees, ready)).2 =
      (places.filter fun place => inDegrees.getD place 0 ≤ 1).reverse ++ ready := by
  induction places generalizing inDegrees ready with
  | nil => simp
  | cons head rest ih =>
    obtain ⟨hhead, hrest⟩ := List.nodup_cons.mp hnodup
    have hstep : ∀ place, (countDown (inDegrees, ready) head).1.getD place 0 =
        inDegrees.getD place 0 - if place = head then 1 else 0 := by
      intro place
      rw [countDown, getD_modify]
      by_cases hsame : head = place
      · subst hsame
        by_cases hlength : head < inDegrees.length
        · simp [hlength]
        · simp [hlength, List.getD_eq_getElem?_getD]
      · simp [hsame, Ne.symm hsame]
    have hjoin : (countDown (inDegrees, ready) head).2 =
        if inDegrees.getD head 0 ≤ 1 then head :: ready else ready := by
      have hnow := hstep head
      rw [if_pos rfl] at hnow
      have hiff : (countDown (inDegrees, ready) head).1.getD head 0 = 0 ↔
          inDegrees.getD head 0 ≤ 1 := by omega
      exact if_congr hiff rfl rfl
    obtain ⟨hcounts, hready⟩ := ih hrest (countDown (inDegrees, ready) head).1
      (countDown (inDegrees, ready) head).2
    constructor
    · intro place
      rw [List.foldl_cons, hcounts, hstep]
      by_cases hsame : place = head
      · subst hsame
        simp [hhead]
      · simp [hsame]
    · have hsame : ∀ place ∈ rest, (countDown (inDegrees, ready) head).1.getD place 0 =
          inDegrees.getD place 0 := by
        intro place hplace
        rw [hstep, if_neg (ne_of_mem_of_not_mem hplace hhead), Nat.sub_zero]
      rw [List.foldl_cons, hready, hjoin,
        List.filter_congr fun place hplace => by rw [hsame place hplace]]
      by_cases hlast : inDegrees.getD head 0 ≤ 1
      · simp only [hlast, if_true, List.filter_cons_of_pos, decide_true, List.reverse_cons,
          List.append_assoc, List.singleton_append]
      · simp only [hlast, if_false, List.filter_cons, decide_false, Bool.false_eq_true]

/-- The enabled places are in order, and links are between them. -/
structure Enabled (links : Links) (count : Nat) (enabled : List Nat) : Prop where
  /-- They ascend, so that none is listed twice. -/
  sorted : enabled.Pairwise (· < ·)
  /-- They are places of the list. -/
  bounded : ∀ place ∈ enabled, place < count
  /-- No link begins or ends elsewhere. -/
  closed : ∀ first second, second ∈ links.after first → first ∈ enabled ∧ second ∈ enabled

/-- The numbers and the ready places when some places have been taken. -/
structure Counts (links : Links) (count : Nat) (enabled inDegrees ready taken : List Nat) : Prop where
  /-- The number of a place is that of the places before it that have not been taken. -/
  inDegree : ∀ place, inDegrees.getD place 0 = (links.before count place).countP (· ∉ taken)
  /-- No place is ready twice. -/
  nodup : ready.Nodup
  /-- A place is ready if it is enabled, has not been taken, and all places before it have. -/
  mem_ready : ∀ place, place ∈ ready ↔
    place ∈ enabled ∧ place ∉ taken ∧ ∀ other ∈ links.before count place, other ∈ taken
  /-- All places before one that has been taken have been taken too. -/
  taken_before : ∀ place ∈ taken, ∀ other ∈ links.before count place, other ∈ taken

/-- The first element of an ascending list that passes a test is the least one that does. -/
theorem min?_eq_find? {items found : List Nat} {test : Nat → Bool} (hsorted : items.Pairwise (· < ·))
    (hmem : ∀ item, item ∈ found ↔ item ∈ items ∧ test item = true) :
    found.min? = items.find? test := by
  cases hfind : items.find? test with
  | none =>
    rw [List.min?_eq_none_iff, List.eq_nil_iff_forall_not_mem]
    intro item hitem
    obtain ⟨hin, htest⟩ := (hmem item).mp hitem
    exact List.find?_eq_none.mp hfind item hin htest
  | some first =>
    rw [List.min?_eq_some_iff]
    refine ⟨(hmem first).mpr ⟨List.mem_of_find?_eq_some hfind, List.find?_some hfind⟩, ?_⟩
    intro item hitem
    obtain ⟨hin, htest⟩ := (hmem item).mp hitem
    obtain ⟨_, skipped, behind, hsplit, hskipped⟩ := List.find?_eq_some_iff_append.mp hfind
    rw [hsplit, List.mem_append, List.mem_cons] at hin
    rw [hsplit, List.pairwise_append, List.pairwise_cons] at hsorted
    rcases hin with hbefore | rfl | hbehind
    · have hfails := hskipped item hbefore
      rw [htest] at hfails
      cases hfails
    · exact Nat.le_refl _
    · exact Nat.le_of_lt (hsorted.2.1.1 item hbehind)

/-- An enabled place is before those that must come after it. -/
theorem Enabled.mem_before_iff (henabled : Enabled links count enabled) (hplace : place ∈ enabled)
    {other : Nat} : place ∈ links.before count other ↔ other ∈ links.after place := by
  rw [Links.mem_before_iff, and_iff_right (henabled.bounded place hplace)]

/-- A place that waits for a ready one is not ready itself, and has not been taken. -/
theorem Counts.waits (h : Counts links count enabled inDegrees ready taken)
    (henabled : Enabled links count enabled) (hplace : place ∈ ready) {other : Nat}
    (hother : other ∈ links.after place) : other ∉ ready ∧ other ∉ taken ++ [place] := by
  obtain ⟨hin, hnew, hfree⟩ := (h.mem_ready place).mp hplace
  have hwaiting := (henabled.mem_before_iff hin).mpr hother
  refine ⟨fun hmem => hnew (((h.mem_ready other).mp hmem).2.2 place hwaiting), fun hmem => ?_⟩
  rcases List.mem_append.mp hmem with htaken | hsame
  · exact hnew (h.taken_before other htaken place hwaiting)
  · rw [List.mem_singleton.mp hsame] at hwaiting
    exact hnew (hfree place hwaiting)

/-- When a ready place is taken, one is taken off the number of each place after it. -/
theorem Counts.inDegree_eq (h : Counts links count enabled inDegrees ready taken)
    (henabled : Enabled links count enabled) (hplace : place ∈ ready) (other : Nat) :
    inDegrees.getD other 0 = (if other ∈ links.after place then 1 else 0) +
      (links.before count other).countP (· ∉ taken ++ [place]) := by
  obtain ⟨hin, hnew, _⟩ := (h.mem_ready place).mp hplace
  rw [h.inDegree, countP_notMem_append_singleton _ hnew, (Links.nodup_before _ _ _).count]
  exact congrArg (· + _) (if_congr (henabled.mem_before_iff hin) rfl rfl)

/-- No number is counted down below zero. -/
theorem Counts.inDegree_pos (h : Counts links count enabled inDegrees ready taken)
    (henabled : Enabled links count enabled) (hplace : place ∈ ready) {other : Nat}
    (hother : other ∈ links.after place) : 0 < inDegrees.getD other 0 := by
  rw [h.inDegree_eq henabled hplace, if_pos hother]
  omega

/-- When a ready place is taken and the places after it are counted down, the numbers and the ready
places are those after one more place has been taken. -/
theorem Counts.take (h : Counts links count enabled inDegrees ready taken)
    (henabled : Enabled links count enabled) (hnodup : (links.after place).Nodup)
    (hplace : place ∈ ready) :
    Counts links count enabled
      ((links.after place).foldl countDown (inDegrees, ready.erase place)).1
      ((links.after place).foldl countDown (inDegrees, ready.erase place)).2 (taken ++ [place]) := by
  obtain ⟨hin, hnew, hfree⟩ := (h.mem_ready place).mp hplace
  obtain ⟨hcounts, hready⟩ := foldl_countDown hnodup inDegrees (ready.erase place)
  have hfall := h.inDegree_eq henabled hplace
  constructor
  case inDegree =>
    intro other
    rw [hcounts, hfall]
    omega
  case nodup =>
    rw [hready, List.nodup_append]
    refine ⟨List.nodup_reverse.mpr (hnodup.filter _), h.nodup.erase place, ?_⟩
    rintro other hother _ hmem rfl
    rw [List.mem_reverse, List.mem_filter] at hother
    exact (h.waits henabled hplace hother.1).1 (List.mem_of_mem_erase hmem)
  case mem_ready =>
    intro other
    rw [hready, List.mem_append, List.mem_reverse, List.mem_filter, h.nodup.mem_erase_iff]
    by_cases hother : other ∈ links.after place
    · have hzero : inDegrees.getD other 0 ≤ 1 ↔
          ∀ before ∈ links.before count other, before ∈ taken ++ [place] := by
        have hnumber := hfall other
        rw [if_pos hother] at hnumber
        have hiff : inDegrees.getD other 0 ≤ 1 ↔
            (links.before count other).countP (· ∉ taken ++ [place]) = 0 := by omega
        rw [hiff, List.countP_eq_zero]
        simp only [decide_eq_true_eq, not_not]
      obtain ⟨hunready, huntaken⟩ := h.waits henabled hplace hother
      rw [decide_eq_true_eq, hzero, and_iff_right hother,
        and_iff_right (henabled.closed place other hother).2, and_iff_right huntaken]
      exact or_iff_left fun hmem => hunready hmem.2
    · have hsame : ∀ before ∈ links.before count other,
          (before ∈ taken ++ [place] ↔ before ∈ taken) := by
        intro before hmem
        have hne : before ≠ place := by
          rintro rfl
          exact hother ((henabled.mem_before_iff hin).mp hmem)
        simp [hne]
      rw [h.mem_ready, forall₂_congr hsame, List.mem_append, List.mem_singleton]
      tauto
  case taken_before =>
    intro other hother before hmem
    rw [List.mem_append]
    rcases List.mem_append.mp hother with htaken | hsame
    · exact .inl (h.taken_before other htaken before hmem)
    · rw [List.mem_singleton.mp hsame] at hmem
      exact .inl (hfree before hmem)

/-- The least ready place is the first enabled one that is left and that none of those left must
precede. -/
theorem Counts.min?_eq (h : Counts links count enabled inDegrees ready taken)
    (henabled : Enabled links count enabled)
    (hpairs : ∀ first second, second ∈ links.after first ↔ (first, second) ∈ pairs) :
    ready.min? = (enabled.filter fun place => !taken.contains place).find?
      (isReady pairs (enabled.filter fun place => !taken.contains place)) := by
  refine min?_eq_find? (henabled.sorted.filter _) fun place => ?_
  rw [h.mem_ready, isReady_iff, List.mem_filter, and_assoc]
  refine and_congr_right fun _ => and_congr (by simp) ?_
  constructor
  · intro hfree other hother hpair
    obtain ⟨hin, hleft⟩ := List.mem_filter.mp hother
    have hbefore : other ∈ links.before count place :=
      Links.mem_before_iff.mpr ⟨henabled.bounded other hin, (hpairs other place).mpr hpair⟩
    simp [hfree other hbefore] at hleft
  · intro hready other hother
    obtain ⟨_, hafter⟩ := Links.mem_before_iff.mp hother
    by_contra hleft
    have hin := (henabled.closed other place hafter).1
    exact hready other (List.mem_filter.mpr ⟨hin, by simpa using hleft⟩)
      ((hpairs other place).mp hafter)

/-- Counting takes the places that the search for ready places takes. -/
theorem Counts.takeLeast_eq (h : Counts links count enabled inDegrees ready taken)
    (henabled : Enabled links count enabled) (hrecords : links.Records count pairs) (steps : Nat) :
    takeLeast links steps inDegrees ready taken =
      taken ++ (takeReady pairs steps (enabled.filter fun place => !taken.contains place)).1 := by
  induction steps generalizing inDegrees ready taken with
  | zero => simp [takeLeast, takeReady]
  | succ steps ih =>
    rw [takeLeast, takeReady_succ, ← h.min?_eq henabled hrecords.mem_after]
    cases hmin : ready.min? with
    | none => simp
    | some place =>
      have hplace := (List.min?_eq_some_iff.mp hmin).1
      have hleft : (enabled.filter fun other => !taken.contains other).erase place =
          enabled.filter fun other => !(taken ++ [place]).contains other := by
        have hnodup : enabled.Nodup := henabled.sorted.imp Nat.ne_of_lt
        rw [(hnodup.filter _).erase_eq_filter, List.filter_filter]
        refine List.filter_congr fun other _ => ?_
        rw [Bool.eq_iff_iff]
        simp [and_comm]
      dsimp only
      rw [ih (h.take henabled (hrecords.nodup_after place) hplace), hleft, List.append_assoc]
      rfl

/-! ### Places and names of a registry -/

variable {registry : PassRegistry}

/-- An enabled pass asks that the first name comes before the second, and both are enabled. -/
def leads (registry : PassRegistry) (first second : String) : Bool :=
  registry.constraints.contains (first, second)

theorem enabledNames_sublist (registry : PassRegistry) :
    registry.enabledNames.Sublist registry.names := List.filter_sublist.map _

theorem length_enabledNames_le (registry : PassRegistry) :
    registry.enabledNames.length ≤ registry.length := by
  have hle := registry.enabledNames_sublist.length_le
  rwa [names, List.length_map] at hle

/-- Constraints are between enabled names. -/
theorem mem_enabledNames_of_mem_constraints {ends : String × String}
    (h : ends ∈ registry.constraints) :
    ends.1 ∈ registry.enabledNames ∧ ends.2 ∈ registry.enabledNames := by
  have hboth := (List.mem_filter.mp h).2
  simpa using hboth

/-- Distinct names have distinct places. -/
theorem place_injOn {first second : String} (hfirst : first ∈ registry.enabledNames)
    (hsame : registry.place first = registry.place second) : first = second :=
  (List.idxOf_inj (registry.enabledNames_sublist.subset hfirst)).mp hsame

theorem place_lt_length {name : String} (hname : name ∈ registry.enabledNames) :
    registry.place name < registry.length := by
  have hlt := List.idxOf_lt_length_iff.mpr (registry.enabledNames_sublist.subset hname)
  rwa [names, List.length_map] at hlt

/-- Names are read back at their places. -/
theorem filterMap_map_place {named : List String}
    (hnamed : ∀ name ∈ named, name ∈ registry.enabledNames) :
    (named.map registry.place).filterMap (registry.names[·]?) = named := by
  rw [List.filterMap_map]
  exact (List.filterMap_congr fun name hname =>
    List.getElem?_idxOf (registry.enabledNames_sublist.subset (hnamed name hname))).trans
      List.filterMap_some

/-- The enabled places are those of the enabled names. -/
theorem enabledPlaces_eq (hdistinct : registry.names.Nodup) :
    registry.enabledPlaces = registry.enabledNames.map registry.place := by
  have hplace : ∀ entry ∈ registry.zipIdx, registry.place entry.1.name = entry.2 := by
    intro entry hentry
    have hname : registry.names[entry.2]? = some entry.1.name := by
      rw [names, List.getElem?_map, List.mem_zipIdx_iff_getElem?.mp hentry]
      rfl
    obtain ⟨hlt, hname⟩ := List.getElem?_eq_some_iff.mp hname
    rw [place, ← hname]
    exact hdistinct.idxOf_getElem entry.2 hlt
  have hpasses : registry.filter (·.enabled) = (registry.zipIdx.filter (·.1.enabled)).map (·.1) := by
    conv_lhs => rw [← List.zipIdx_map_fst 0 registry, List.filter_map]
    rfl
  rw [enabledPlaces, enabledNames, hpasses, List.map_map, List.map_map]
  exact (List.map_congr_left fun entry hentry => hplace entry (List.mem_filter.mp hentry).1).symm

/-- The links of a registry say what its constraints say. -/
theorem records_links (registry : PassRegistry) :
    registry.links.Records registry.length
      (registry.constraints.map (Prod.map registry.place registry.place)) := by
  have hlinks : registry.links =
      (registry.constraints.map (Prod.map registry.place registry.place)).foldl
        (fun links ends => links.add ends.1 ends.2) (.unconstrained registry.length) := by
    rw [List.foldl_map]
    rfl
  rw [hlinks]
  refine Links.records_foldl fun ends hends => ?_
  obtain ⟨named, hnamed, rfl⟩ := List.mem_map.mp hends
  obtain ⟨hfirst, hsecond⟩ := mem_enabledNames_of_mem_constraints hnamed
  exact ⟨place_lt_length hfirst, place_lt_length hsecond⟩

/-- The enabled places ascend. -/
theorem pairwise_enabledPlaces (registry : PassRegistry) :
    registry.enabledPlaces.Pairwise (· < ·) := by
  have hall : (registry.zipIdx.map (·.2)).Pairwise (· < ·) := by
    rw [List.zipIdx_map_snd]
    exact List.pairwise_lt_range'
  exact hall.sublist (List.filter_sublist.map _)

theorem nodup_enabledPlaces (registry : PassRegistry) : registry.enabledPlaces.Nodup :=
  registry.pairwise_enabledPlaces.imp Nat.ne_of_lt

/-- Links are between the enabled places. -/
theorem enabled_enabledPlaces (hdistinct : registry.names.Nodup) :
    Enabled registry.links registry.length registry.enabledPlaces where
  sorted := registry.pairwise_enabledPlaces
  bounded place hplace := by
    rw [enabledPlaces_eq hdistinct] at hplace
    obtain ⟨name, hname, rfl⟩ := List.mem_map.mp hplace
    exact place_lt_length hname
  closed first second hafter := by
    obtain ⟨named, hnamed, heq⟩ := List.mem_map.mp (((records_links registry).mem_after _ _).mp hafter)
    obtain ⟨hfirst, hsecond⟩ := mem_enabledNames_of_mem_constraints hnamed
    cases heq
    rw [enabledPlaces_eq hdistinct]
    exact ⟨List.mem_map_of_mem hfirst, List.mem_map_of_mem hsecond⟩

/-- Before a place is taken its number counts all places before it. -/
theorem counts_links (registry : PassRegistry) :
    Counts registry.links registry.length registry.enabledPlaces registry.links.inDegrees
      (registry.enabledPlaces.filter fun place => registry.links.inDegrees.getD place 0 = 0) [] where
  inDegree place := by
    rw [(records_links registry).inDegree]
    simp
  nodup := registry.nodup_enabledPlaces.filter _
  mem_ready place := by
    rw [List.mem_filter, decide_eq_true_eq, (records_links registry).inDegree,
      List.length_eq_zero_iff, List.eq_nil_iff_forall_not_mem]
    simp
  taken_before place hplace := by cases hplace

/-- One place must come after another if the constraints ask it of the names there. -/
theorem contains_after_place {first second : String} (hfirst : first ∈ registry.enabledNames)
    (hsecond : second ∈ registry.enabledNames) :
    (registry.links.after (registry.place first)).contains (registry.place second) =
      registry.leads first second := by
  rw [Bool.eq_iff_iff, leads, List.contains_iff_mem, List.contains_iff_mem,
    (records_links registry).mem_after]
  exact mem_map_prodMap_iff (fun _ hmem _ _ => place_injOn hmem)
    (fun _ => mem_enabledNames_of_mem_constraints) hfirst hsecond

/-- Places are taken as the names are. -/
theorem takeReady_places (hdistinct : registry.names.Nodup) (steps : Nat) :
    takeReady (registry.constraints.map (Prod.map registry.place registry.place)) steps
      registry.enabledPlaces =
      Prod.map (List.map registry.place) (List.map registry.place)
        (takeReady registry.constraints steps registry.enabledNames) := by
  rw [enabledPlaces_eq hdistinct]
  exact takeReady_map (fun _ hmem _ _ => place_injOn hmem)
    (fun _ => mem_enabledNames_of_mem_constraints) (fun _ hname => hname)
    (hdistinct.sublist registry.enabledNames_sublist)

/-- Counting takes the places of the names that are taken when they are ready. -/
theorem takeLeast_links (hdistinct : registry.names.Nodup) (steps : Nat) :
    takeLeast registry.links steps registry.links.inDegrees
      (registry.enabledPlaces.filter fun place => registry.links.inDegrees.getD place 0 = 0) [] =
      (takeReady registry.constraints steps registry.enabledNames).1.map registry.place := by
  have hall : (registry.enabledPlaces.filter fun place => !([] : List Nat).contains place) =
      registry.enabledPlaces := List.filter_eq_self.mpr fun _ _ => rfl
  rw [(counts_links registry).takeLeast_eq (enabled_enabledPlaces hdistinct) (records_links registry),
    List.nil_append, hall, takeReady_places hdistinct]
  rfl

/-- The enabled places that counting does not take are those of the names that get stuck. -/
theorem filter_enabledPlaces (hdistinct : registry.names.Nodup) (steps : Nat) :
    (registry.enabledPlaces.filter fun place =>
      !((takeReady registry.constraints steps registry.enabledNames).1.map
        registry.place).contains place) =
      (takeReady registry.constraints steps registry.enabledNames).2.map registry.place := by
  have hplaces := takeReady_places hdistinct steps
  have hstuck := (congrArg Prod.snd hplaces).symm.trans
    (takeReady_snd registry.nodup_enabledPlaces)
  rw [hplaces] at hstuck
  exact hstuck.symm

/-- With a step for each enabled pass the schedule tests names, then constraints, and then takes
the enabled names that are ready, however many more steps it may take. -/
theorem scheduleWithin_eq (hsteps : registry.enabledNames.length ≤ steps) :
    registry.scheduleWithin steps =
      match firstRepeat? registry.names, registry.unresolved? with
      | some name, _ => .error (.internal (.repeatedPass name))
      | none, some (asking, missing) => .error (.unknownPass asking missing)
      | none, none =>
        let taken :=
          takeReady registry.constraints registry.enabledNames.length registry.enabledNames
        if taken.2 = [] then .ok taken.1
        else .error (.cyclicPassDependency (dropFinal registry.leads taken.2.length taken.2)) := by
  unfold scheduleWithin
  cases hrepeat : firstRepeat? registry.names with
  | some name => rfl
  | none =>
    cases registry.unresolved? with
    | some named => rfl
    | none =>
      have hdistinct := (firstRepeat?_eq_none_iff _).mp hrepeat
      obtain ⟨more, rfl⟩ := Nat.exists_eq_add_of_le hsteps
      dsimp only
      rw [takeLeast_links hdistinct, filter_enabledPlaces hdistinct, takeReady_add (Nat.le_refl _)]
      set taken := takeReady registry.constraints registry.enabledNames.length registry.enabledNames
        with htaken
      have hperm : (taken.1 ++ taken.2).Perm registry.enabledNames := takeReady_perm _ _ _
      have hlength : taken.1.length + taken.2.length = registry.enabledPlaces.length := by
        rw [enabledPlaces_eq hdistinct, List.length_map, ← hperm.length_eq, List.length_append]
      have hstuck : taken.2 = [] ↔
          (taken.1.map registry.place).length = registry.enabledPlaces.length := by
        rw [← List.length_eq_zero_iff, List.length_map]
        omega
      have hdrop : dropFinal (fun place => (registry.links.after place).contains) taken.2.length
          (taken.2.map registry.place) =
          (dropFinal registry.leads taken.2.length taken.2).map registry.place :=
        dropFinal_map fun first hfirst second hsecond =>
          contains_after_place (hperm.subset (List.mem_append_right _ hfirst))
            (hperm.subset (List.mem_append_right _ hsecond))
      by_cases hnone : taken.2 = []
      · rw [if_pos hnone, if_neg (not_not.mpr (hstuck.mp hnone)),
          filterMap_map_place fun name hname => hperm.subset (List.mem_append_left _ hname)]
        rfl
      · rw [if_neg hnone, if_pos (mt hstuck.mpr hnone), List.length_map, hdrop,
          filterMap_map_place fun name hname => hperm.subset
            (List.mem_append_right _ (dropFinal_sublist.subset hname))]
        rfl

end OpGraph.PassRegistry
