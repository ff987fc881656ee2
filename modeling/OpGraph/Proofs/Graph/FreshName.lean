import Mathlib.Data.List.Nodup
import Mathlib.Data.List.Perm.Subperm
import Mathlib.Order.Bounds.Basic
import OpGraph.Proofs.Graph.Lookup

/-!
# Names that no node carries

The name of a new node is the requested one if it is free, else the one with the least free
suffix. Suffixes give distinct names and there are more of them than names in use, so the
search for a free one cannot fail.
-/

namespace OpGraph.Graph

/-- Decimal notations of different numbers differ. -/
theorem toString_nat_injective {m n : Nat} (h : toString m = toString n) : m = n := by
  have hdigits : Nat.toDigits 10 m = Nat.toDigits 10 n := by
    have hlist := congrArg String.toList h
    rwa [Nat.toString_eq_ofList_toDigits, Nat.toString_eq_ofList_toDigits, String.toList_ofList,
      String.toList_ofList] at hlist
  have hvalue := congrArg (Nat.ofDigitChars 10 · 0) hdigits
  rwa [Nat.ofDigitChars_ten_toDigits, Nat.ofDigitChars_ten_toDigits] at hvalue

/-- Different suffixes give different names. -/
theorem suffixed_injective (base : String) {m n : Nat} (h : suffixed base m = suffixed base n) :
    m = n := by
  have hlist := congrArg String.toList h
  simp only [suffixed, String.toList_append] at hlist
  have hnumber : (toString m).toList = (toString n).toList := List.append_cancel_left hlist
  exact toString_nat_injective (String.toList_inj.mp hnumber)

variable (graph : Graph) (base : String)

/-- The suffixed names among which a free one is sought. -/
def candidateNames : List String :=
  (List.range' 1 (graph.names.size + 1)).map (suffixed base)

/-- Suffixed names with different numbers are different names. -/
theorem nodup_map_suffixed (count : Nat) : ((List.range' 1 count).map (suffixed base)).Nodup :=
  List.Nodup.map (fun _ _ h => suffixed_injective base h) (List.nodup_range' 1)

/-- Different names in use are no more than there are names in use. -/
theorem length_le_size_of_used {names : List String} (hnodup : names.Nodup)
    (hused : ∀ name ∈ names, (graph.idOf? name).isSome = true) : names.length ≤ graph.names.size := by
  have hkeys : names ⊆ graph.names.keys := fun name hname =>
    (graph.names.mem_keys_iff name).mpr (hused name hname)
  calc names.length ≤ graph.names.keys.length := (hnodup.subperm hkeys).length_le
    _ = graph.names.size := List.length_map _

/-- There are more candidates than names in use, so one of them is free. -/
theorem exists_free_candidate : ∃ name ∈ graph.candidateNames base, graph.idOf? name = none := by
  by_contra hnone
  push Not at hnone
  have hlength := graph.length_le_size_of_used (nodup_map_suffixed base (graph.names.size + 1))
    fun name hname => Option.isSome_iff_ne_none.mpr (hnone name hname)
  rw [List.length_map, List.length_range'] at hlength
  omega

/-- The search for a free candidate finds one. -/
theorem find?_candidateNames :
    ∃ name, (graph.candidateNames base).find? (fun name => !graph.names.contains name) = some name ∧
      graph.idOf? name = none := by
  obtain ⟨free, hmem, hfree⟩ := graph.exists_free_candidate base
  have hcandidate : (!graph.names.contains free) = true := by
    rw [(graph.names.contains_eq_false_iff free).mpr hfree]
    rfl
  cases hfind : (graph.candidateNames base).find? (fun name => !graph.names.contains name) with
  | none => exact absurd hcandidate (List.find?_eq_none.mp hfind free hmem)
  | some name =>
    refine ⟨name, rfl, (graph.names.contains_eq_false_iff name).mp ?_⟩
    simpa using List.find?_some hfind

/-- The name of a new node is carried by no other node. -/
theorem idOf?_freshName : graph.idOf? (graph.freshName base) = none := by
  unfold freshName
  cases hbase : graph.names.contains base with
  | false => exact (graph.names.contains_eq_false_iff base).mp hbase
  | true =>
    obtain ⟨name, hfind, hfree⟩ := graph.find?_candidateNames base
    rw [candidateNames] at hfind
    simp only [if_true, hfind]
    exact hfree

/-- A free name is taken as it is. -/
theorem freshName_of_free (h : graph.idOf? base = none) : graph.freshName base = base := by
  unfold freshName
  rw [(graph.names.contains_eq_false_iff base).mpr h]
  rfl

/-- In place of a name in use, the one with the least free suffix is taken. -/
theorem freshName_of_taken (h : (graph.idOf? base).isSome = true) :
    ∃ number, IsLeast {number | 1 ≤ number ∧ graph.idOf? (suffixed base number) = none} number ∧
      graph.freshName base = suffixed base number := by
  obtain ⟨name, hfind, hfree⟩ := graph.find?_candidateNames base
  have hname : graph.freshName base = name := by
    rw [candidateNames] at hfind
    simp only [freshName, (graph.names.contains_iff_isSome base).mpr h, if_true, hfind,
      Option.getD_some]
  rw [candidateNames, List.find?_map] at hfind
  obtain ⟨number, hnumber, rfl⟩ := Option.map_eq_some_iff.mp hfind
  obtain ⟨_, hrange, hearlier⟩ := List.find?_range'_eq_some.mp hnumber
  refine ⟨number, ⟨⟨(List.mem_range'_1.mp hrange).1, hfree⟩, fun other hother => ?_⟩, hname⟩
  by_contra hlt
  have htaken := hearlier other hother.1 (Nat.not_le.mp hlt)
  simp [(graph.names.contains_eq_false_iff _).mpr hother.2] at htaken

/-- The name of a new node is the requested one, with a number appended if need be. -/
theorem freshName_eq_or_suffixed :
    graph.freshName base = base ∨ ∃ number, graph.freshName base = suffixed base number := by
  cases hbase : graph.idOf? base with
  | none => exact .inl (graph.freshName_of_free base hbase)
  | some id =>
    obtain ⟨number, _, hname⟩ := graph.freshName_of_taken base (by rw [hbase]; rfl)
    exact .inr ⟨number, hname⟩

end OpGraph.Graph
