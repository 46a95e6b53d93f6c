/-
Counting the slots of a finite table that hold a given value.
-/
import Mathlib.Algebra.BigOperators.Group.Finset.Piecewise
import Mathlib.Algebra.Order.BigOperators.Group.Finset

namespace Occupancy

variable {ι α : Type*} [DecidableEq ι] [DecidableEq α]

/-- The number of slots in `slots` that hold `a`. -/
def count (slots : Finset ι) (table : ι → Option α) (a : α) : Nat :=
  (slots.filter fun i => table i = some a).card

variable {slots : Finset ι} {table : ι → Option α}

omit [DecidableEq ι] in
theorem count_pos_iff {a : α} :
    0 < count slots table a ↔ ∃ i ∈ slots, table i = some a := by
  rw [count, Finset.card_pos, Finset.filter_nonempty_iff]

/-- Filling an empty slot. -/
theorem count_fill {i : ι} (hi : i ∈ slots) (hempty : table i = none) (a : α) :
    count slots (Function.update table i (some a)) =
      Function.update (count slots table) a (count slots table a + 1) := by
  funext b
  by_cases hb : b = a
  · subst b
    have hset : (slots.filter fun j =>
        Function.update table i (some a) j = some a) =
        insert i (slots.filter fun j => table j = some a) := by
      ext j
      by_cases hj : j = i
      · simp [hj, hi]
      · simp [hj]
    have hnew : i ∉ slots.filter fun j => table j = some a := by
      simp [hempty]
    rw [Function.update_self, count, hset, Finset.card_insert_of_notMem hnew,
      count]
  · rw [Function.update_of_ne hb, count, count]
    congr 1
    apply Finset.filter_congr
    intro j hj
    by_cases hji : j = i
    · simp [hji, hempty, Ne.symm hb]
    · simp [hji]

/-- Clearing a slot. -/
theorem count_clear {i : ι} {a : α} (hi : i ∈ slots)
    (hfull : table i = some a) :
    count slots (Function.update table i none) =
      Function.update (count slots table) a (count slots table a - 1) := by
  have hback : Function.update (Function.update table i none) i (some a) =
      table := by
    rw [Function.update_idem, ← hfull, Function.update_eq_self]
  have hfill := count_fill hi (Function.update_self i none table) a
  rw [hback] at hfill
  rw [hfill, Function.update_self, Nat.add_sub_cancel, Function.update_idem,
    Function.update_eq_self]

/-- There are not more holdings than slots. -/
theorem sum_count_le (slots : Finset ι) (table : ι → Option α)
    (values : Finset α) :
    ∑ a ∈ values, count slots table a ≤ slots.card := by
  have hdisjoint : (values : Set α).PairwiseDisjoint fun a =>
      slots.filter fun i => table i = some a := by
    intro a _ b _ hab
    apply Finset.disjoint_left.mpr
    intro i hia hib
    rw [Finset.mem_filter] at hia hib
    exact hab (Option.some.inj (hia.2.symm.trans hib.2))
  calc ∑ a ∈ values, count slots table a
      = (values.biUnion fun a =>
          slots.filter fun i => table i = some a).card :=
        (Finset.card_biUnion hdisjoint).symm
    _ ≤ slots.card := Finset.card_le_card
        (Finset.biUnion_subset.mpr fun a _ => Finset.filter_subset _ _)

/-- Nor are there in a list more than its entries. -/
theorem sum_listCount_le (held : List α) (values : Finset α) :
    ∑ a ∈ values, held.count a ≤ held.length := by
  induction held with
  | nil => simp
  | cons head rest ih =>
      have hone : ∑ a ∈ values, (if head = a then 1 else 0) ≤ 1 := by
        rw [Finset.sum_ite_eq]
        split_ifs <;> decide
      simp only [List.count_cons, beq_iff_eq, Finset.sum_add_distrib,
        List.length_cons]
      exact Nat.add_le_add ih hone

end Occupancy
