import Mathlib.Data.Fintype.Card
import Mathlib.Data.Fintype.EquivFin
import Mathlib.Data.Fintype.Sets
import Mathlib.Logic.Relation
import Mathlib.Order.WellFounded

/-!
# Cycles among finitely many elements

Among finitely many elements one has no other before it, unless something comes before itself.
Therefore, where each element of a list has another one of the list before it, the steps back from
any of them lead into a cycle, and likewise ahead. Nothing is said about which cycle it is.
-/

namespace OpGraph

variable {α : Type} [DecidableEq α] {before : α → α → Prop} {items : List α} {item : α}

/-- Among finitely many elements some element has no other before it, if nothing comes before
itself. -/
theorem exists_first_of_acyclic (hacyclic : ∀ item, ¬ Relation.TransGen before item item)
    (hne : items ≠ []) : ∃ item ∈ items, ∀ other ∈ items, ¬ before other item := by
  let leads : { item // item ∈ items } → { item // item ∈ items } → Prop :=
    fun first second => Relation.TransGen before first.1 second.1
  have : IsTrans _ leads := ⟨fun _ _ _ => Relation.TransGen.trans⟩
  have : Std.Irrefl leads := ⟨fun item => hacyclic item.1⟩
  have hwell : WellFounded leads := Finite.wellFounded_of_trans_of_irrefl leads
  obtain ⟨start, hstart⟩ := List.exists_mem_of_ne_nil items hne
  obtain ⟨⟨item, hitem⟩, _, hfirst⟩ := hwell.has_min Set.univ ⟨⟨start, hstart⟩, trivial⟩
  exact ⟨item, hitem, fun other hother hbefore =>
    hfirst ⟨other, hother⟩ trivial (.single hbefore)⟩

/-- If every element has another one before it then a cycle leads to each of them. -/
theorem exists_cycle_before (hback : ∀ item ∈ items, ∃ other ∈ items, before other item)
    (hitem : item ∈ items) :
    ∃ start, Relation.TransGen before start start ∧ Relation.TransGen before start item := by
  classical
  by_contra hnone
  push Not at hnone
  -- Only steps between elements that lead to the given one count, so a cycle of them leads to it.
  let leading : α → α → Prop := fun other next =>
    before other next ∧ Relation.ReflTransGen before next item
  have hacyclic : ∀ start, ¬ Relation.TransGen leading start start := by
    intro start hcycle
    have hloop : Relation.TransGen before start start :=
      Relation.TransGen.mono (fun _ _ hstep => hstep.1) start start hcycle
    obtain ⟨_, _, hlast⟩ := Relation.TransGen.tail'_iff.mp hcycle
    exact hnone start hloop (hloop.trans_left hlast.2)
  have hne : items.filter (fun other => Relation.ReflTransGen before other item) ≠ [] :=
    List.ne_nil_of_mem (List.mem_filter.mpr ⟨hitem, decide_eq_true .refl⟩)
  obtain ⟨first, hfirst, hnothing⟩ := exists_first_of_acyclic hacyclic hne
  obtain ⟨hmem, hleads⟩ := List.mem_filter.mp hfirst
  have hleads := of_decide_eq_true hleads
  obtain ⟨other, hother, hbefore⟩ := hback first hmem
  have hback : Relation.ReflTransGen before other item := hleads.head hbefore
  exact hnothing other (List.mem_filter.mpr ⟨hother, decide_eq_true hback⟩) ⟨hbefore, hleads⟩

/-- If every element comes before another one then each of them leads to a cycle. -/
theorem exists_cycle_after (hahead : ∀ item ∈ items, ∃ other ∈ items, before item other)
    (hitem : item ∈ items) :
    ∃ last, Relation.TransGen before last last ∧ Relation.TransGen before item last := by
  have hback : ∀ item ∈ items, ∃ other ∈ items, Function.swap before other item := hahead
  obtain ⟨last, hcycle, hleads⟩ := exists_cycle_before hback hitem
  exact ⟨last, Relation.transGen_swap.mp hcycle, Relation.transGen_swap.mp hleads⟩

end OpGraph
