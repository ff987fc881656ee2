import Mathlib.Data.Set.Finite.Basic
import Mathlib.Order.Lattice.Nat
import OpGraph.Pass.GatherAxis
import OpGraph.Pass.Terminal
import OpGraph.Proofs.Graph.FreshName

/-!
# Names that grow from other names

A new node that is made for another one is named after it, with a number appended if that name is
in use. Which number this is depends only on which names of the same stem are in use. The names
made for different nodes, or for different ports of one node, have different stems, and names of
different stems are never the same. So names made for different owners cannot collide, whatever
names there are already.
-/

namespace OpGraph

/-! ### Stems -/

/-- A name that ends with something else than a digit, so that no number has been appended to it. -/
def IsStem (base : String) : Prop :=
  ∃ front last, base.toList = front ++ [last] ∧ last.isDigit = false

/-- A stem itself or a stem with a number appended. -/
def GrowsFrom (base name : String) : Prop := name = base ∨ ∃ number, name = Graph.suffixed base number

/-- Decimal notation consists of digits. -/
theorem isDigit_of_mem_toString {number : Nat} {char : Char} (h : char ∈ (toString number).toList) :
    char.isDigit = true := by
  rw [Nat.toString_eq_ofList_toDigits, String.toList_ofList] at h
  exact Nat.isDigit_of_mem_toDigits (by decide) (by decide) h

/-- Decimal notation is not empty. -/
theorem toList_toString_ne_nil (number : Nat) : (toString number).toList ≠ [] := by
  rw [Nat.toString_eq_ofList_toDigits, String.toList_ofList]
  exact Nat.toDigits_ne_nil

/-- Where two texts end with different numbers after the same mark, the mark stands once before the
number, so the rest agrees and the numbers do. -/
theorem eq_of_append_number {mark : Char} (hmark : mark.isDigit = false) {first second : List Char}
    {m n : Nat}
    (h : first ++ mark :: (toString m).toList = second ++ mark :: (toString n).toList) :
    first = second ∧ m = n := by
  have hnot : ∀ number : Nat, mark ∉ (toString number).toList := fun number hmem => by
    rw [isDigit_of_mem_toString hmem] at hmark
    cases hmark
  have hfront : first = second := by
    rcases List.append_eq_append_iff.mp h with ⟨extra, hsecond, hrest⟩ | ⟨extra, hfirst, hrest⟩
    · cases extra with
      | nil => rw [hsecond, List.append_nil]
      | cons head tail =>
        rw [List.cons_append, List.cons.injEq] at hrest
        exact absurd (hrest.2 ▸ List.mem_append_right tail List.mem_cons_self) (hnot m)
    · cases extra with
      | nil => rw [hfirst, List.append_nil]
      | cons head tail =>
        rw [List.cons_append, List.cons.injEq] at hrest
        exact absurd (hrest.2 ▸ List.mem_append_right tail List.mem_cons_self) (hnot n)
  rw [hfront] at h
  have hnumber := List.append_cancel_left h
  rw [List.cons.injEq] at hnumber
  exact ⟨hfront, Graph.toString_nat_injective (String.toList_inj.mp hnumber.2)⟩

theorem toList_suffixed (base : String) (number : Nat) :
    (Graph.suffixed base number).toList = base.toList ++ '_' :: (toString number).toList := by
  change (base ++ "_" ++ toString number).toList = _
  rw [String.toList_append, String.toList_append, List.append_assoc]
  rfl

/-- A name with a number appended gives away name and number. -/
theorem suffixed_inj {base other : String} {m n : Nat}
    (h : Graph.suffixed base m = Graph.suffixed other n) : base = other ∧ m = n := by
  have hlist := congrArg String.toList h
  rw [toList_suffixed, toList_suffixed] at hlist
  obtain ⟨hbase, hnumber⟩ := eq_of_append_number (by decide) hlist
  exact ⟨String.toList_inj.mp hbase, hnumber⟩

/-- A stem is no name with a number appended. -/
theorem IsStem.ne_suffixed {base : String} (h : IsStem base) (other : String) (number : Nat) :
    base ≠ Graph.suffixed other number := by
  rintro rfl
  obtain ⟨front, last, hlist, hlast⟩ := h
  rw [toList_suffixed] at hlist
  have hmem : last ∈ (toString number).toList := by
    have hend := congrArg List.getLast? hlist
    rw [List.getLast?_append, List.getLast?_cons, List.getLast?_concat,
      List.getLast?_eq_some_getLast (toList_toString_ne_nil number), Option.getD_some, Option.some_or,
      Option.some.injEq] at hend
    exact hend ▸ List.getLast_mem _
  rw [isDigit_of_mem_toString hmem] at hlast
  cases hlast

/-- A name grows from one stem only. -/
theorem IsStem.eq_of_growsFrom {first second name : String} (hfirst : IsStem first)
    (hsecond : IsStem second) (h : GrowsFrom first name) (h' : GrowsFrom second name) :
    first = second := by
  rcases h with rfl | ⟨m, rfl⟩
  · rcases h' with rfl | ⟨n, hn⟩
    · rfl
    · exact absurd hn (hfirst.ne_suffixed second n)
  · rcases h' with hm | ⟨n, hn⟩
    · exact absurd hm.symm (hsecond.ne_suffixed first m)
    · exact (suffixed_inj hn).1

/-! ### Stems after the owner -/

/-- Name that is asked for the terminal of an output port. -/
def terminalName (owner : String) (index : Nat) : String := s!"{owner}/Result_port_{index}/"

/-- Name that is asked for the constant with the axis of a gather. -/
def axisName (owner : String) : String := s!"{owner}/axis"

theorem toList_terminalName (owner : String) (index : Nat) :
    (terminalName owner index).toList =
      (owner.toList ++ "/Result_port".toList ++ '_' :: (toString index).toList) ++ ['/'] := by
  have hmark : "/Result_port_".toList = "/Result_port".toList ++ ['_'] := rfl
  change (owner ++ "/Result_port_" ++ toString index ++ "/").toList = _
  rw [String.toList_append, String.toList_append, String.toList_append, hmark]
  simp only [List.append_assoc, List.cons_append]
  rfl

theorem toList_axisName (owner : String) :
    (axisName owner).toList = (owner.toList ++ "/axi".toList) ++ ['s'] := by
  change (owner ++ "/axis").toList = _
  rw [String.toList_append, List.append_assoc]
  rfl

theorem isStem_terminalName (owner : String) (index : Nat) : IsStem (terminalName owner index) :=
  ⟨_, _, toList_terminalName owner index, by decide⟩

theorem isStem_axisName (owner : String) : IsStem (axisName owner) :=
  ⟨_, _, toList_axisName owner, by decide⟩

/-- The name of a terminal gives away owner and port. -/
theorem terminalName_inj {owner other : String} {index position : Nat}
    (h : terminalName owner index = terminalName other position) :
    owner = other ∧ index = position := by
  have hlist := congrArg String.toList h
  rw [toList_terminalName, toList_terminalName] at hlist
  obtain ⟨hfront, hindex⟩ := eq_of_append_number (by decide) (List.append_cancel_right hlist)
  exact ⟨String.toList_inj.mp (List.append_cancel_right hfront), hindex⟩

/-- The name of a constant gives away the owner. -/
theorem axisName_inj {owner other : String} (h : axisName owner = axisName other) : owner = other := by
  have hlist := congrArg String.toList h
  rw [toList_axisName, toList_axisName] at hlist
  exact String.toList_inj.mp (List.append_cancel_right (List.append_cancel_right hlist))

/-- A terminal is not named like a constant. -/
theorem terminalName_ne_axisName (owner other : String) (index : Nat) :
    terminalName owner index ≠ axisName other := by
  intro h
  have hlist := congrArg String.toList h
  rw [toList_terminalName, toList_axisName] at hlist
  have hend := congrArg List.getLast? hlist
  rw [List.getLast?_concat, List.getLast?_concat, Option.some.injEq] at hend
  cases hend

/-- A name made for an owner: for the terminal of one of its ports or for the constant with its
axis. -/
def MadeFor (owner name : String) : Prop :=
  ∃ base, (base = axisName owner ∨ ∃ index, base = terminalName owner index) ∧ GrowsFrom base name

/-- A name is made for one owner only. -/
theorem MadeFor.owner_eq {owner other name : String} (h : MadeFor owner name)
    (h' : MadeFor other name) : owner = other := by
  obtain ⟨base, hbase, hgrows⟩ := h
  obtain ⟨base', hbase', hgrows'⟩ := h'
  rcases hbase with rfl | ⟨index, rfl⟩
  · rcases hbase' with rfl | ⟨position, rfl⟩
    · exact axisName_inj ((isStem_axisName _).eq_of_growsFrom (isStem_axisName _) hgrows hgrows')
    · exact absurd ((isStem_axisName _).eq_of_growsFrom (isStem_terminalName _ _) hgrows hgrows').symm
        (terminalName_ne_axisName _ _ _)
  · rcases hbase' with rfl | ⟨position, rfl⟩
    · exact absurd ((isStem_terminalName _ _).eq_of_growsFrom (isStem_axisName _) hgrows hgrows')
        (terminalName_ne_axisName _ _ _)
    · exact (terminalName_inj ((isStem_terminalName _ _).eq_of_growsFrom (isStem_terminalName _ _)
        hgrows hgrows')).1

/-! ### The first free name -/

open Classical in
/-- The name of a new node where these names are in use: the base, if it is free, else the base with
the least number that makes it free. -/
noncomputable def firstFree (used : String → Prop) (base : String) : String :=
  if used base then
    Graph.suffixed base (sInf {number | 1 ≤ number ∧ ¬ used (Graph.suffixed base number)})
  else base

/-- The first free name grows from the base. -/
theorem growsFrom_firstFree (used : String → Prop) (base : String) :
    GrowsFrom base (firstFree used base) := by
  unfold firstFree
  split
  · exact .inr ⟨_, rfl⟩
  · exact .inl rfl

/-- Which name is the first free one depends only on names that grow from the base. -/
theorem firstFree_congr {used used' : String → Prop} {base : String}
    (h : ∀ name, GrowsFrom base name → (used name ↔ used' name)) :
    firstFree used base = firstFree used' base := by
  have hnumbers : {number | 1 ≤ number ∧ ¬ used (Graph.suffixed base number)} =
      {number | 1 ≤ number ∧ ¬ used' (Graph.suffixed base number)} :=
    Set.ext fun number => and_congr_right fun _ => not_congr (h _ (.inr ⟨number, rfl⟩))
  unfold firstFree
  rw [hnumbers]
  by_cases hbase : used base
  · rw [if_pos hbase, if_pos ((h base (.inl rfl)).mp hbase)]
  · rw [if_neg hbase, if_neg fun hbase' => hbase ((h base (.inl rfl)).mpr hbase')]

/-- Where finitely many names are in use the first free name is free. -/
theorem not_used_firstFree {used : String → Prop} (h : {name | used name}.Finite) (base : String) :
    ¬ used (firstFree used base) := by
  unfold firstFree
  split
  · have hfree : ∃ number, ¬ used (Graph.suffixed base (number + 1)) := by
      by_contra hall
      push Not at hall
      refine Set.infinite_of_injective_forall_mem (fun m n hmn => ?_) hall h
      exact Nat.succ.inj (Graph.suffixed_injective base hmn)
    obtain ⟨number, hnumber⟩ := hfree
    exact (Nat.sInf_mem (s := {number | 1 ≤ number ∧ ¬ used (Graph.suffixed base number)})
      ⟨number + 1, Nat.le_add_left 1 number, hnumber⟩).2
  · assumption

namespace Graph

/-- A graph takes the first free name. -/
theorem freshName_eq_firstFree (graph : Graph) (base : String) :
    graph.freshName base = firstFree (fun name => (graph.idOf? name).isSome = true) base := by
  unfold firstFree
  split
  case isTrue hbase =>
    obtain ⟨number, hleast, hname⟩ := graph.freshName_of_taken base hbase
    simp only [Option.not_isSome_iff_eq_none]
    rw [hname, hleast.csInf_eq]
  case isFalse hbase => exact graph.freshName_of_free base (Option.not_isSome_iff_eq_none.mp hbase)

end Graph

end OpGraph
