/-!
# Finite maps in insertion order

A map holds one value per key and lists its entries in the order in which the
keys arrived. Replacing a value keeps its place, a new key goes to the end, and
removal closes the gap without moving the other entries. That no key occurs
twice is part of the type, so the lookup laws below need no hypothesis on the map.
-/

namespace OpGraph

/-- A finite map whose entries keep the order in which their keys were added. -/
structure OrderedMap (κ : Type) (α : Type) where
  /-- Key and value of each entry, oldest key first. -/
  toList : List (κ × α)
  /-- No key has two entries. -/
  nodup_keys : (toList.map Prod.fst).Nodup

namespace OrderedMap

variable {κ α : Type}

/-- The map without entries. -/
def empty : OrderedMap κ α := ⟨[], by simp⟩

instance : Inhabited (OrderedMap κ α) := ⟨empty⟩

instance : EmptyCollection (OrderedMap κ α) := ⟨empty⟩

/-- Keys, oldest first. -/
def keys (m : OrderedMap κ α) : List κ := m.toList.map Prod.fst

/-- Values in the order of their keys. -/
def values (m : OrderedMap κ α) : List α := m.toList.map Prod.snd

/-- Number of entries. -/
def size (m : OrderedMap κ α) : Nat := m.toList.length

/-- No entry at all. -/
def isEmpty (m : OrderedMap κ α) : Bool := m.toList.isEmpty

/-- Two maps with the same entries in the same order are equal. -/
theorem ext {m₁ m₂ : OrderedMap κ α} (h : m₁.toList = m₂.toList) : m₁ = m₂ := by
  cases m₁; cases m₂; cases h; rfl

variable [DecidableEq κ]

/-- Value stored under a key. -/
def get? (m : OrderedMap κ α) (key : κ) : Option α := m.toList.lookup key

/-- Whether a key has an entry. -/
def contains (m : OrderedMap κ α) (key : κ) : Bool := m.keys.contains key

/-- Apply a function to the value of one key; other entries and the order stay. -/
def modify (m : OrderedMap κ α) (key : κ) (f : α → α) : OrderedMap κ α where
  toList := m.toList.map fun entry => if entry.1 = key then (entry.1, f entry.2) else entry
  nodup_keys := by
    have h : (m.toList.map fun entry => if entry.1 = key then (entry.1, f entry.2) else entry).map
        Prod.fst = m.toList.map Prod.fst := by
      rw [List.map_map]
      exact List.map_congr_left fun entry _ => by
        simp only [Function.comp]; split <;> rfl
    rw [h]; exact m.nodup_keys

/-- Store a value: in place under a key that is present, else at the end. -/
def insert (m : OrderedMap κ α) (key : κ) (value : α) : OrderedMap κ α :=
  if h : m.contains key then m.modify key fun _ => value
  else
    { toList := m.toList ++ [(key, value)]
      nodup_keys := by
        have hnew : key ∉ m.toList.map Prod.fst := by
          simpa [contains, keys] using h
        rw [List.map_append, List.nodup_append]
        refine ⟨m.nodup_keys, by simp, ?_⟩
        intro a ha b hb hab
        simp only [List.map_cons, List.map_nil, List.mem_singleton] at hb
        exact hnew (hb ▸ hab ▸ ha) }

/-- Drop the entry of a key, if there is one. -/
def erase (m : OrderedMap κ α) (key : κ) : OrderedMap κ α where
  toList := m.toList.filter fun entry => entry.1 ≠ key
  nodup_keys := m.nodup_keys.sublist (List.filter_sublist.map Prod.fst)

/-- Insert pairs one after another, so the last value given for a key wins. -/
def ofList (entries : List (κ × α)) : OrderedMap κ α :=
  entries.foldl (fun m entry => m.insert entry.1 entry.2) empty

/-- Modification keeps the keys and their order. -/
@[simp] theorem keys_modify (m : OrderedMap κ α) (key : κ) (f : α → α) :
    (m.modify key f).keys = m.keys := by
  simp only [keys, modify, List.map_map]
  exact List.map_congr_left fun entry _ => by
    simp only [Function.comp]; split <;> rfl

/-- A new key becomes the last one, and a known key stays where it is. -/
theorem keys_insert (m : OrderedMap κ α) (key : κ) (value : α) :
    (m.insert key value).keys = if m.contains key then m.keys else m.keys ++ [key] := by
  unfold insert
  split
  · exact keys_modify m key _
  · simp [keys]

/-- Removal takes the key out of the order and moves no other key. -/
theorem keys_erase (m : OrderedMap κ α) (key : κ) :
    (m.erase key).keys = m.keys.filter (· ≠ key) := by
  simp only [keys, erase, List.filter_map]
  rfl

/-- An entry of the list is what lookup finds. -/
theorem get?_eq_some_iff (m : OrderedMap κ α) (key : κ) (value : α) :
    m.get? key = some value ↔ (key, value) ∈ m.toList := by
  obtain ⟨entries, nodup⟩ := m
  simp only [get?]
  induction entries with
  | nil => simp
  | cons head tail ih =>
    obtain ⟨k, v⟩ := head
    rw [List.map_cons, List.nodup_cons] at nodup
    by_cases hk : key = k
    · subst hk
      have hfree : (key, value) ∉ tail := fun hmem =>
        nodup.1 (List.mem_map.mpr ⟨(key, value), hmem, rfl⟩)
      simp [hfree, eq_comm]
    · have hne : (key == k) = false := by simpa using hk
      simp [List.lookup_cons, hne, hk, ih nodup.2]

/-- A key is present exactly when lookup finds a value. -/
theorem contains_iff_isSome (m : OrderedMap κ α) (key : κ) :
    m.contains key = true ↔ (m.get? key).isSome = true := by
  constructor
  · intro h
    obtain ⟨entry, hmem, rfl⟩ := List.mem_map.mp (List.contains_iff_mem.mp h)
    rw [(m.get?_eq_some_iff entry.1 entry.2).mpr hmem]
    rfl
  · intro h
    obtain ⟨value, hvalue⟩ := Option.isSome_iff_exists.mp h
    exact List.contains_iff_mem.mpr
      (List.mem_map.mpr ⟨(key, value), (m.get?_eq_some_iff key value).mp hvalue, rfl⟩)

/-- The map without entries finds nothing. -/
@[simp] theorem get?_empty (key : κ) : (empty : OrderedMap κ α).get? key = none := rfl

/-- A key is absent exactly when lookup finds nothing. -/
theorem contains_eq_false_iff (m : OrderedMap κ α) (key : κ) :
    m.contains key = false ↔ m.get? key = none := by
  rw [← Bool.not_eq_true, contains_iff_isSome, Option.not_isSome_iff_eq_none]

/-- Modification acts on the value of its own key and on no other. -/
theorem get?_modify (m : OrderedMap κ α) (key other : κ) (f : α → α) :
    (m.modify key f).get? other =
      if other = key then (m.get? other).map f else m.get? other := by
  apply Option.ext
  intro value
  have hmem : (other, value) ∈ (m.modify key f).toList ↔
      ∃ old, (other, old) ∈ m.toList ∧ (if other = key then f old else old) = value := by
    simp only [modify, List.mem_map, Prod.exists]
    constructor
    · rintro ⟨k, old, hentry, heq⟩
      by_cases hk : k = key
      · simp only [hk, if_true, Prod.mk.injEq] at heq
        obtain ⟨rfl, rfl⟩ := heq
        exact ⟨old, hk ▸ hentry, by simp⟩
      · simp only [hk, if_false, Prod.mk.injEq] at heq
        obtain ⟨rfl, rfl⟩ := heq
        exact ⟨old, hentry, by simp [hk]⟩
    · rintro ⟨old, hentry, rfl⟩
      exact ⟨other, old, hentry, by split <;> rfl⟩
  rw [get?_eq_some_iff, hmem]
  by_cases hkey : other = key
  · simp [hkey, ← get?_eq_some_iff]
  · simp [hkey, ← get?_eq_some_iff]

/-- Insertion decides what its own key finds and nothing else. -/
theorem get?_insert (m : OrderedMap κ α) (key other : κ) (value : α) :
    (m.insert key value).get? other = if other = key then some value else m.get? other := by
  unfold insert
  split
  · rename_i h
    rw [get?_modify]
    obtain ⟨old, hold⟩ := Option.isSome_iff_exists.mp ((m.contains_iff_isSome key).mp h)
    by_cases hkey : other = key
    · simp [hkey, hold]
    · simp [hkey]
  · rename_i h
    have hnone : m.get? key = none := (m.contains_eq_false_iff key).mp (by simpa using h)
    apply Option.ext
    intro result
    rw [get?_eq_some_iff]
    simp only [List.mem_append, List.mem_singleton, Prod.mk.injEq]
    by_cases hkey : other = key
    · subst hkey
      have hfree : (other, result) ∉ m.toList := fun hmem => by
        rw [← get?_eq_some_iff, hnone] at hmem
        cases hmem
      simp [hfree, eq_comm]
    · simp [hkey, ← get?_eq_some_iff]

/-- Removal hides its own key and no other. -/
theorem get?_erase (m : OrderedMap κ α) (key other : κ) :
    (m.erase key).get? other = if other = key then none else m.get? other := by
  apply Option.ext
  intro value
  rw [get?_eq_some_iff]
  by_cases hkey : other = key
  · simp [erase, hkey]
  · simp [erase, hkey, ← get?_eq_some_iff]

/-- A key is listed exactly when lookup finds a value. -/
theorem mem_keys_iff (m : OrderedMap κ α) (key : κ) :
    key ∈ m.keys ↔ (m.get? key).isSome = true := by
  rw [← contains_iff_isSome, contains, List.contains_iff_mem]

/-- A value is listed exactly when lookup finds it under some key. -/
theorem mem_values_iff (m : OrderedMap κ α) (value : α) :
    value ∈ m.values ↔ ∃ key, m.get? key = some value := by
  simp only [values, List.mem_map, Prod.exists, exists_eq_right, get?_eq_some_iff]

/-- An entry with a new key goes to the end. -/
theorem toList_insert_of_absent {m : OrderedMap κ α} {key : κ} (h : m.get? key = none)
    (value : α) : (m.insert key value).toList = m.toList ++ [(key, value)] := by
  have hfree := (m.contains_eq_false_iff key).mpr h
  unfold insert
  rw [dif_neg (by simp [hfree])]

/-- An entry of a map was among the pairs from which the map was made. -/
theorem mem_of_get?_ofList {entries : List (κ × α)}
    {key : κ} {value : α} (h : (ofList entries).get? key = some value) :
    (key, value) ∈ entries := by
  suffices ∀ start : OrderedMap κ α,
      (entries.foldl (fun m entry => m.insert entry.1 entry.2) start).get? key = some value →
        (key, value) ∈ entries ∨ start.get? key = some value by
    rcases this empty h with hmem | hempty
    · exact hmem
    · cases hempty
  clear h
  induction entries with
  | nil => exact fun _ h => .inr h
  | cons entry rest ih =>
    intro start h
    rcases ih (start.insert entry.1 entry.2) h with hmem | hstart
    · exact .inl (List.mem_cons_of_mem entry hmem)
    · rw [get?_insert] at hstart
      split at hstart
      · rename_i hkey
        cases hstart
        exact .inl (by rw [hkey]; simp)
      · exact .inr hstart

/-- A map made from pairs with different keys lists them in their order. -/
theorem toList_ofList {entries : List (κ × α)} (hnodup : (entries.map Prod.fst).Nodup) :
    (ofList entries).toList = entries := by
  suffices ∀ start : OrderedMap κ α, (∀ entry ∈ entries, start.get? entry.1 = none) →
      (entries.foldl (fun m entry => m.insert entry.1 entry.2) start).toList =
        start.toList ++ entries by
    exact this empty fun _ _ => rfl
  induction entries with
  | nil => exact fun start _ => (List.append_nil _).symm
  | cons entry rest ih =>
    intro start hfree
    rw [List.map_cons, List.nodup_cons] at hnodup
    obtain ⟨hentry, hrest⟩ := List.forall_mem_cons.mp hfree
    have hlater : ∀ later ∈ rest, (start.insert entry.1 entry.2).get? later.1 = none := by
      intro later hlater
      have hkey : later.1 ≠ entry.1 := fun heq => hnodup.1 (heq ▸ List.mem_map_of_mem hlater)
      rw [get?_insert, if_neg hkey, hrest later hlater]
    rw [List.foldl_cons, ih hnodup.2 _ hlater, toList_insert_of_absent hentry, List.append_assoc]
    rfl

/-- Under each key there is what stands with it in the list. -/
theorem get?_ofList {entries : List (κ × α)} (hnodup : (entries.map Prod.fst).Nodup) (key : κ) :
    (ofList entries).get? key = entries.lookup key :=
  congrArg (List.lookup key) (toList_ofList hnodup)

end OrderedMap

end OpGraph
