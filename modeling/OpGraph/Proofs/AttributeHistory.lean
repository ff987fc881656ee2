import Mathlib.Data.List.Induction
import Mathlib.Order.Bounds.Basic
import OpGraph.Attribute

/-!
# What attributes tell about their past

Attributes are set and removed any number of times, the same name again and again and others in
between. What they hold and what they have on record is enough to audit this: a present attribute
holds the value of the last call that affected its name, a recorded name was removed by the last such
call, and both lists are in order of time. The record does not say more: a removal that a later set
has made up for leaves no trace, and neither does a call that asks for the removal of an absent name.
-/

namespace OpGraph

/-- A call that changes attributes. -/
inductive AttributeCall where
  /-- A value is stored under a name, whatever there is under it. -/
  | set (name : String) (value : AttrValue)
  /-- The attribute of a name is removed, if there is one. -/
  | remove (name : String)

namespace Attributes

/-- Attributes after one more call. -/
def perform (attributes : Attributes) : AttributeCall → Attributes
  | .set name value => attributes.set name value
  | .remove name => attributes.erase name

/-- Attributes after calls, one after another. -/
def performAll (attributes : Attributes) (calls : List AttributeCall) : Attributes :=
  calls.foldl perform attributes

end Attributes

namespace AttributeCall

variable {history before : List AttributeCall} {call other : AttributeCall}
  {name stored first second : String} {value : AttrValue} {time : Nat}

/-! ### Times in a history -/

/-- Calls leave a name present: one of them sets it, and none after that one removes it. -/
def Present (history : List AttributeCall) (name : String) : Prop :=
  ∃ (time : Nat) (value : AttrValue), history[time]? = some (.set name value) ∧
    ∀ later, time < later → history[later]? ≠ some (.remove name)

/-- After the calls before it, a call removes a name: it asks for that, and the name is present. -/
def Removes (name : String) (before : List AttributeCall) (call : AttributeCall) : Prop :=
  call = .remove name ∧ Present before name

/-- After the calls before it, a call starts a period of presence: it sets an absent name. -/
def Begins (name : String) (before : List AttributeCall) (call : AttributeCall) : Prop :=
  (∃ value, call = .set name value) ∧ ¬Present before name

/-- After the calls before it, a call affects a name: it sets or removes it. -/
def Affects (name : String) (before : List AttributeCall) (call : AttributeCall) : Prop :=
  (∃ value, call = .set name value) ∨ Removes name before call

/-- The call at that time is of a kind that depends on the calls before it. -/
def HappensAt (kind : List AttributeCall → AttributeCall → Prop) (history : List AttributeCall)
    (time : Nat) : Prop :=
  ∃ call, history[time]? = some call ∧ kind (history.take time) call

/-- The call at that time is the last one of its kind. -/
def LastAt (kind : List AttributeCall → AttributeCall → Prop) (history : List AttributeCall)
    (time : Nat) : Prop :=
  IsGreatest {time | HappensAt kind history time} time

/-- No call after this one affects the name, and this one does. -/
def LastCall (history : List AttributeCall) (name : String) (call : AttributeCall) : Prop :=
  ∃ time, history[time]? = some call ∧ LastAt (Affects name) history time

/-- The last call of a kind comes earlier for one name than for another. -/
def Earlier (kind : String → List AttributeCall → AttributeCall → Prop)
    (history : List AttributeCall) (first second : String) : Prop :=
  ∃ time later, LastAt (kind first) history time ∧ LastAt (kind second) history later ∧ time < later

@[simp] theorem not_removes_set : ¬Removes name before (.set stored value) := fun h => by cases h.1

@[simp] theorem removes_remove :
    Removes name before (.remove stored) ↔ stored = name ∧ Present before name := by
  simp [Removes]

@[simp] theorem begins_set :
    Begins name before (.set stored value) ↔ stored = name ∧ ¬Present before name := by
  simp [Begins]

@[simp] theorem not_begins_remove : ¬Begins name before (.remove stored) := fun h => by
  obtain ⟨_, hcall⟩ := h.1
  cases hcall

@[simp] theorem affects_set : Affects name before (.set stored value) ↔ stored = name := by
  simp [Affects]

@[simp] theorem affects_remove :
    Affects name before (.remove stored) ↔ stored = name ∧ Present before name := by
  simp [Affects]

/-! ### One more call -/

/-- A call of a longer history is the new one or stands where it stood. -/
theorem getElem?_concat_eq_some_iff :
    (history ++ [call])[time]? = some other ↔
      history[time]? = some other ∨ time = history.length ∧ other = call := by
  rcases Nat.lt_trichotomy time history.length with hlt | rfl | hgt
  · rw [List.getElem?_append_left hlt]
    simp [Nat.ne_of_lt hlt]
  · simp [eq_comm]
  · rw [List.getElem?_eq_none (by rwa [List.length_append, List.length_singleton]),
      List.getElem?_eq_none (Nat.le_of_lt hgt)]
    simp [Nat.ne_of_gt hgt]

theorem lt_length_of_getElem? (h : history[time]? = some call) : time < history.length :=
  (List.getElem?_eq_some_iff.mp h).1

/-- A call makes its name present or absent and leaves the others as they are. -/
theorem present_concat :
    Present (history ++ [call]) name ↔
      (∃ value, call = .set name value) ∨ Present history name ∧ call ≠ .remove name := by
  constructor
  · rintro ⟨time, value, hset, hlater⟩
    rcases getElem?_concat_eq_some_iff.mp hset with hkept | ⟨_, rfl⟩
    · refine .inr ⟨⟨time, value, hkept, fun later hlt hremove => ?_⟩, ?_⟩
      · exact hlater later hlt (getElem?_concat_eq_some_iff.mpr (.inl hremove))
      · rintro rfl
        exact hlater history.length (lt_length_of_getElem? hkept)
          (getElem?_concat_eq_some_iff.mpr (.inr ⟨rfl, rfl⟩))
    · exact .inl ⟨value, rfl⟩
  · rintro (⟨value, rfl⟩ | ⟨⟨time, value, hset, hlater⟩, hcall⟩)
    · refine ⟨history.length, value, getElem?_concat_eq_some_iff.mpr (.inr ⟨rfl, rfl⟩), ?_⟩
      intro later hlt hremove
      have hend := lt_length_of_getElem? hremove
      rw [List.length_append, List.length_singleton] at hend
      omega
    · refine ⟨time, value, getElem?_concat_eq_some_iff.mpr (.inl hset), fun later hlt hremove => ?_⟩
      rcases getElem?_concat_eq_some_iff.mp hremove with hkept | ⟨_, rfl⟩
      · exact hlater later hlt hkept
      · exact hcall rfl

section Kinds

variable {kind : List AttributeCall → AttributeCall → Prop}

theorem HappensAt.lt_length (h : HappensAt kind history time) : time < history.length := by
  obtain ⟨call, hcall, _⟩ := h
  exact lt_length_of_getElem? hcall

/-- What happens at a time depends on the calls up to it. -/
theorem happensAt_concat :
    HappensAt kind (history ++ [call]) time ↔
      HappensAt kind history time ∨ time = history.length ∧ kind history call := by
  constructor
  · rintro ⟨found, hfound, hkind⟩
    rcases getElem?_concat_eq_some_iff.mp hfound with hkept | ⟨rfl, rfl⟩
    · rw [List.take_append_of_le_length (Nat.le_of_lt (lt_length_of_getElem? hkept))] at hkind
      exact .inl ⟨found, hkept, hkind⟩
    · rw [List.take_left] at hkind
      exact .inr ⟨rfl, hkind⟩
  · rintro (⟨found, hfound, hkind⟩ | ⟨rfl, hkind⟩)
    · refine ⟨found, getElem?_concat_eq_some_iff.mpr (.inl hfound), ?_⟩
      rwa [List.take_append_of_le_length (Nat.le_of_lt (lt_length_of_getElem? hfound))]
    · refine ⟨call, getElem?_concat_eq_some_iff.mpr (.inr ⟨rfl, rfl⟩), ?_⟩
      rwa [List.take_left]

/-- A new call of the kind is the last one. -/
theorem lastAt_concat_length (h : kind history call) :
    LastAt kind (history ++ [call]) history.length := by
  refine ⟨happensAt_concat.mpr (.inr ⟨rfl, h⟩), fun time htime => ?_⟩
  have hlt := HappensAt.lt_length htime
  rw [List.length_append, List.length_singleton] at hlt
  omega

/-- A new call of another kind leaves the last one of the kind as it is. -/
theorem lastAt_concat_of_not (h : ¬kind history call) :
    LastAt kind (history ++ [call]) time ↔ LastAt kind history time := by
  have hset : {time | HappensAt kind (history ++ [call]) time} =
      {time | HappensAt kind history time} :=
    Set.ext fun time => happensAt_concat.trans (or_iff_left fun hnew => h hnew.2)
  rw [LastAt, hset, LastAt]

end Kinds

/-- The last call that affects a name is one only. -/
theorem LastCall.unique (h : LastCall history name call) (h' : LastCall history name other) :
    call = other := by
  obtain ⟨time, hcall, hlast⟩ := h
  obtain ⟨time', hother, hlast'⟩ := h'
  rw [hlast.unique hlast', hother, Option.some.injEq] at hcall
  exact hcall.symm

/-- A new call that affects a name is the last one to do so. -/
theorem lastCall_concat_of_affects (h : Affects name history call) :
    LastCall (history ++ [call]) name other ↔ other = call := by
  have hlast : LastCall (history ++ [call]) name call :=
    ⟨history.length, getElem?_concat_eq_some_iff.mpr (.inr ⟨rfl, rfl⟩), lastAt_concat_length h⟩
  exact ⟨fun hother => hother.unique hlast, fun heq => heq ▸ hlast⟩

/-- A new call that does not affect a name leaves the last one that did. -/
theorem lastCall_concat_of_not (h : ¬Affects name history call) :
    LastCall (history ++ [call]) name other ↔ LastCall history name other := by
  refine exists_congr fun time => ?_
  rw [lastAt_concat_of_not h, getElem?_concat_eq_some_iff]
  refine and_congr_left fun hlast => or_iff_left ?_
  rintro ⟨rfl, _⟩
  exact Nat.lt_irrefl _ (HappensAt.lt_length hlast.1)

section Order

variable {kind : String → List AttributeCall → AttributeCall → Prop}

/-- A new call of another kind leaves the order of two names. -/
theorem Earlier.concat (h : Earlier kind history first second) (hfirst : ¬kind first history call)
    (hsecond : ¬kind second history call) : Earlier kind (history ++ [call]) first second := by
  obtain ⟨time, later, htime, hlater, hlt⟩ := h
  exact ⟨time, later, (lastAt_concat_of_not hfirst).mpr htime, (lastAt_concat_of_not hsecond).mpr hlater,
    hlt⟩

/-- A new call of the kind comes after the last one for any other name. -/
theorem earlier_concat (h : ∃ time, LastAt (kind first) history time)
    (hfirst : ¬kind first history call) (hsecond : kind second history call) :
    Earlier kind (history ++ [call]) first second := by
  obtain ⟨time, htime⟩ := h
  exact ⟨time, history.length, (lastAt_concat_of_not hfirst).mpr htime, lastAt_concat_length hsecond,
    HappensAt.lt_length htime.1⟩

end Order

/-- A present name has a last call that started a period of presence. -/
theorem Present.exists_lastAt_begins (h : Present history name) :
    ∃ time, LastAt (Begins name) history time := by
  induction history using List.reverseRecOn with
  | nil =>
    obtain ⟨time, value, hset, _⟩ := h
    cases hset
  | append_singleton history call ih =>
    by_cases hbegins : Begins name history call
    · exact ⟨history.length, lastAt_concat_length hbegins⟩
    · have hpresent : Present history name := by
        rcases present_concat.mp h with hset | hkept
        · exact not_not.mp fun habsent => hbegins ⟨hset, habsent⟩
        · exact hkept.1
      obtain ⟨time, htime⟩ := ih hpresent
      exact ⟨time, (lastAt_concat_of_not hbegins).mpr htime⟩

/-- If the last call that affects a name is a removal, then the name was present before it. -/
theorem LastCall.exists_removes (h : LastCall history name (.remove name)) :
    ∃ time, LastAt (Removes name) history time ∧ Present (history.take time) name := by
  obtain ⟨time, hcall, ⟨found, hfound, haffects⟩, hlast⟩ := h
  cases hcall.symm.trans hfound
  have hpresent := (affects_remove.mp haffects).2
  refine ⟨time, ⟨⟨_, hcall, rfl, hpresent⟩, ?_⟩, hpresent⟩
  rintro later ⟨call, hlater, hremoves⟩
  exact hlast ⟨call, hlater, .inr hremoves⟩

end AttributeCall

namespace Attributes

open AttributeCall

variable {attributes : Attributes} {history : List AttributeCall} {name : String}

/-! ### What attributes recount -/

/-- Attributes recount the calls of a history. -/
structure Recounts (attributes : Attributes) (history : List AttributeCall) : Prop where
  /-- The names that the calls leave present are present. -/
  contains_iff : ∀ name, attributes.contains name = true ↔ Present history name
  /-- A name has the value that the last call to affect it has set. -/
  get?_eq_some_iff : ∀ name value,
    attributes.get? name = some value ↔ LastCall history name (.set name value)
  /-- The record lists the names of which the last call that affected them is a removal. -/
  mem_removed_iff : ∀ name, name ∈ attributes.removed ↔ LastCall history name (.remove name)
  /-- The record lists each name once. -/
  nodup_removed : attributes.removed.Nodup
  /-- Names on record stand in the order of their last removals. -/
  removed_order : attributes.removed.Pairwise (Earlier Removes history)
  /-- Present names stand in the order in which their periods of presence began. -/
  keys_order : attributes.values.keys.Pairwise (Earlier Begins history)

namespace Recounts

/-- Without any call there is nothing to recount. -/
theorem empty : Attributes.empty.Recounts [] := by
  have hlast : ∀ name call, ¬LastCall [] name call := by
    rintro name call ⟨time, hcall, _⟩
    cases hcall
  refine ⟨fun name => ⟨fun h => ?_, ?_⟩, fun name value => ⟨fun h => ?_, fun h => absurd h (hlast _ _)⟩,
    fun name => ⟨fun h => ?_, fun h => absurd h (hlast _ _)⟩, .nil, .nil, .nil⟩
  · cases h
  · rintro ⟨time, value, hset, _⟩
    cases hset
  · cases h
  · cases h

/-- No present name is on record. -/
theorem notMem_removed (h : attributes.Recounts history) (hname : attributes.contains name = true) :
    name ∉ attributes.removed := by
  intro hremoved
  obtain ⟨value, hvalue⟩ := Option.isSome_iff_exists.mp (contains_iff_isSome.mp hname)
  cases ((h.get?_eq_some_iff name value).mp hvalue).unique ((h.mem_removed_iff name).mp hremoved)

/-- A name on record has a last removal. -/
theorem exists_lastAt_removes (h : attributes.Recounts history) (hname : name ∈ attributes.removed) :
    ∃ time, LastAt (Removes name) history time := by
  obtain ⟨time, htime, _⟩ := ((h.mem_removed_iff name).mp hname).exists_removes
  exact ⟨time, htime⟩

/-- A present name has a last call that started a period of presence. -/
theorem exists_lastAt_begins (h : attributes.Recounts history)
    (hname : name ∈ attributes.values.keys) : ∃ time, LastAt (Begins name) history time :=
  ((h.contains_iff name).mp (mem_keys_iff.mp hname)).exists_lastAt_begins

/-- Storing a value affects its name and takes it off the record. -/
theorem set (h : attributes.Recounts history) (name : String) (value : AttrValue) :
    (attributes.set name value).Recounts (history ++ [.set name value]) where
  contains_iff other := by
    rw [contains_iff_isSome, get?_set, present_concat]
    by_cases hname : other = name
    · simp [hname]
    · rw [if_neg hname, ← contains_iff_isSome, h.contains_iff]
      simp [Ne.symm hname]
  get?_eq_some_iff other found := by
    rw [get?_set]
    by_cases hname : other = name
    · rw [if_pos hname, lastCall_concat_of_affects (affects_set.mpr hname.symm)]
      simp [hname, eq_comm]
    · rw [if_neg hname, lastCall_concat_of_not (affects_set.not.mpr (Ne.symm hname)),
        h.get?_eq_some_iff]
  mem_removed_iff other := by
    rw [mem_removed_set]
    by_cases hname : other = name
    · rw [lastCall_concat_of_affects (affects_set.mpr hname.symm)]
      simp [hname]
    · rw [lastCall_concat_of_not (affects_set.not.mpr (Ne.symm hname)), h.mem_removed_iff]
      simp [hname]
  nodup_removed := h.nodup_removed.filter _
  removed_order := (h.removed_order.filter _).imp fun hpair => hpair.concat not_removes_set not_removes_set
  keys_order := by
    rw [keys_set]
    split
    case isTrue hpresent =>
      have hnot : ∀ other, ¬Begins other history (.set name value) := fun other hbegins => by
        obtain ⟨rfl, habsent⟩ := begins_set.mp hbegins
        exact habsent ((h.contains_iff name).mp hpresent)
      exact h.keys_order.imp fun hpair => hpair.concat (hnot _) (hnot _)
    case isFalse habsent =>
      have hnot : ∀ other ∈ attributes.values.keys, ¬Begins other history (.set name value) := by
        rintro other hother hbegins
        obtain ⟨rfl, _⟩ := begins_set.mp hbegins
        exact habsent (mem_keys_iff.mp hother)
      have hnew : Begins name history (.set name value) :=
        begins_set.mpr ⟨rfl, (h.contains_iff name).not.mp habsent⟩
      refine List.pairwise_append.mpr ⟨?kept, List.pairwise_singleton _ _, ?new⟩
      case kept =>
        exact h.keys_order.imp_of_mem fun hfirst hsecond hpair =>
          hpair.concat (hnot _ hfirst) (hnot _ hsecond)
      case new =>
        intro other hother new hmem
        rw [List.mem_singleton.mp hmem]
        exact earlier_concat (h.exists_lastAt_begins hother) (hnot other hother) hnew

/-- Removing a present attribute affects its name and puts it on record, behind the others. -/
theorem erase_of_contains (h : attributes.Recounts history) (hname : attributes.contains name = true) :
    (attributes.erase name).Recounts (history ++ [.remove name]) := by
  have hpresent : Present history name := (h.contains_iff name).mp hname
  have hremoved : ∀ other ∈ attributes.removed, ¬Removes other history (.remove name) := by
    rintro other hother hremoves
    obtain ⟨rfl, _⟩ := removes_remove.mp hremoves
    exact h.notMem_removed hname hother
  rw [Attributes.erase_of_contains hname]
  refine ⟨fun other => ?contains, fun other found => ?value, fun other => ?record, ?nodup, ?removed,
    ?keys⟩
  case contains =>
    rw [contains_iff_isSome, get?, OrderedMap.get?_erase, present_concat]
    by_cases hother : other = name
    · simp [hother]
    · rw [if_neg hother, ← get?, ← contains_iff_isSome, h.contains_iff]
      simp [Ne.symm hother]
  case value =>
    rw [get?, OrderedMap.get?_erase]
    by_cases hother : other = name
    · subst hother
      rw [if_pos rfl, lastCall_concat_of_affects (affects_remove.mpr ⟨rfl, hpresent⟩)]
      simp
    · rw [if_neg hother, lastCall_concat_of_not fun haffects => hother (affects_remove.mp haffects).1.symm,
        ← h.get?_eq_some_iff, get?]
  case record =>
    rw [List.mem_append, List.mem_singleton]
    by_cases hother : other = name
    · subst hother
      rw [lastCall_concat_of_affects (affects_remove.mpr ⟨rfl, hpresent⟩)]
      simp
    · rw [lastCall_concat_of_not fun haffects => hother (affects_remove.mp haffects).1.symm,
        h.mem_removed_iff, or_iff_left hother]
  case nodup =>
    exact List.nodup_append.mpr ⟨h.nodup_removed, List.pairwise_singleton _ name,
      fun other hother new hnew heq => h.notMem_removed hname (List.mem_singleton.mp hnew ▸ heq ▸ hother)⟩
  case removed =>
    refine List.pairwise_append.mpr ⟨?_, List.pairwise_singleton _ _, fun other hother new hnew => ?_⟩
    · exact h.removed_order.imp_of_mem fun hfirst hsecond hpair =>
        hpair.concat (hremoved _ hfirst) (hremoved _ hsecond)
    · rw [List.mem_singleton.mp hnew]
      exact earlier_concat (h.exists_lastAt_removes hother) (hremoved other hother)
        (removes_remove.mpr ⟨rfl, hpresent⟩)
  case keys =>
    rw [OrderedMap.keys_erase]
    exact (h.keys_order.filter _).imp fun hpair => hpair.concat not_begins_remove not_begins_remove

/-- A call for the removal of an absent attribute affects nothing. -/
theorem erase_of_absent (h : attributes.Recounts history) (hname : ¬attributes.contains name = true) :
    (attributes.erase name).Recounts (history ++ [.remove name]) := by
  have habsent : ¬Present history name := (h.contains_iff name).not.mp hname
  have hnot : ∀ other, ¬Affects other history (.remove name) := fun other haffects => by
    obtain ⟨rfl, hpresent⟩ := affects_remove.mp haffects
    exact habsent hpresent
  have hremoves : ∀ other, ¬Removes other history (.remove name) :=
    fun other hother => hnot other (.inr hother)
  rw [Attributes.erase_of_absent hname]
  refine ⟨fun other => ?_, fun other found => ?_, fun other => ?_, h.nodup_removed, ?_, ?_⟩
  · rw [present_concat, h.contains_iff]
    simp only [reduceCtorEq, exists_false, false_or]
    refine (and_iff_left_of_imp fun hpresent heq => ?_).symm
    cases heq
    exact habsent hpresent
  · rw [lastCall_concat_of_not (hnot other), h.get?_eq_some_iff]
  · rw [lastCall_concat_of_not (hnot other), h.mem_removed_iff]
  · exact h.removed_order.imp fun hpair => hpair.concat (hremoves _) (hremoves _)
  · exact h.keys_order.imp fun hpair => hpair.concat not_begins_remove not_begins_remove

/-- Attributes recount one more call. -/
theorem perform (h : attributes.Recounts history) (call : AttributeCall) :
    (attributes.perform call).Recounts (history ++ [call]) := by
  cases call with
  | set name value => exact h.set name value
  | remove name =>
    by_cases hname : attributes.contains name = true
    · exact h.erase_of_contains hname
    · exact h.erase_of_absent hname

/-- Attributes recount any number of calls. -/
theorem performAll (h : attributes.Recounts history) (calls : List AttributeCall) :
    (attributes.performAll calls).Recounts (history ++ calls) := by
  induction calls generalizing attributes history with
  | nil => rwa [List.append_nil]
  | cons call rest ih =>
    have hrest := ih (h.perform call)
    rwa [List.append_assoc] at hrest

end Recounts

/-- The calls that set the pairs of a list. -/
def settings (entries : List (String × AttrValue)) : List AttributeCall :=
  entries.map fun entry => .set entry.1 entry.2

/-- Attributes made from pairs are those that are set pair by pair. -/
theorem performAll_settings (entries : List (String × AttrValue)) :
    Attributes.empty.performAll (settings entries) = ofList entries := by
  suffices ∀ start : OrderedMap String AttrValue,
      performAll ⟨start, []⟩ (settings entries) =
        ⟨entries.foldl (fun m entry => m.insert entry.1 entry.2) start, []⟩ from this ∅
  induction entries with
  | nil => exact fun _ => rfl
  | cons entry rest ih => exact fun start => ih (start.insert entry.1 entry.2)

/-- Deletion of attributes can be audited over whole histories. However attributes are made from pairs
and then set and removed, a name has the value of its last set since its last removal; it counts as
removed exactly if it has been present and the last call that affected it is a removal, so never while
it is present; the record lists these names once each in the order of their last removals; and the
present names are listed in the order of the sets with which their present periods began. -/
theorem audited_of_performAll (entries : List (String × AttrValue)) (calls : List AttributeCall) :
    let attributes := (ofList entries).performAll calls
    let history := settings entries ++ calls
    (∀ name value, attributes.get? name = some value ↔ LastCall history name (.set name value)) ∧
      (∀ name, attributes.wasRemoved name = true ↔
        (∃ time, Present (history.take time) name) ∧ LastCall history name (.remove name)) ∧
      (∀ name, ¬(attributes.contains name = true ∧ attributes.wasRemoved name = true)) ∧
      ((∀ name, name ∈ attributes.removed ↔ attributes.wasRemoved name = true) ∧
        attributes.removed.Nodup ∧ attributes.removed.Pairwise (Earlier Removes history)) ∧
      ((∀ name, name ∈ attributes.values.keys ↔ Present history name) ∧
        attributes.values.keys.Nodup ∧ attributes.values.keys.Pairwise (Earlier Begins history)) := by
  have hrecounts : ((ofList entries).performAll calls).Recounts (settings entries ++ calls) := by
    rw [← performAll_settings]
    exact (Recounts.empty.performAll (settings entries)).performAll calls
  intro attributes history
  have hremoved : ∀ name, name ∈ attributes.removed ↔ attributes.wasRemoved name = true :=
    fun name => List.contains_iff_mem.symm
  refine ⟨hrecounts.get?_eq_some_iff, fun name => ?_, fun name hboth => ?_,
    ⟨hremoved, hrecounts.nodup_removed, hrecounts.removed_order⟩,
    ⟨fun name => ?_, attributes.values.nodup_keys, hrecounts.keys_order⟩⟩
  · rw [← hremoved, hrecounts.mem_removed_iff]
    refine (and_iff_right_of_imp fun hlast => ?_).symm
    obtain ⟨time, _, hpresent⟩ := hlast.exists_removes
    exact ⟨time, hpresent⟩
  · exact hrecounts.notMem_removed hboth.1 ((hremoved name).mpr hboth.2)
  · rw [mem_keys_iff, hrecounts.contains_iff]

example :
    let attributes := (ofList [("a", .int 1), ("b", .int 2), ("c", .int 3)]).performAll
      [.remove "a", .remove "b", .set "a" (.int 4), .remove "a", .remove "b", .remove "d"]
    attributes.values.keys = ["c"] ∧ attributes.removed = ["b", "a"] := by decide +kernel

end Attributes

end OpGraph
