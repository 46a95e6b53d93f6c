/-
Removal from an array by moving the last element into the hole.
-/
import Mathlib.Data.List.Perm.Basic

namespace SwapRemove

variable {α : Type*} [DecidableEq α]

/-- Remove the first occurrence of `a`; the last element takes its place. -/
def swapRemove (a : α) : List α → List α
  | [] => []
  | head :: tail =>
      if head = a then
        match tail.getLast? with
        | none => []
        | some last => last :: tail.dropLast
      else head :: swapRemove a tail

/-- Up to the order of the rest this is `List.erase`. -/
theorem swapRemove_perm (a : α) (l : List α) :
    (swapRemove a l).Perm (l.erase a) := by
  induction l with
  | nil => exact List.Perm.refl []
  | cons head tail ih =>
      by_cases hhead : head = a
      · rw [swapRemove, if_pos hhead, hhead, List.erase_cons_head]
        rcases List.eq_nil_or_concat tail with rfl | ⟨init, last, rfl⟩
        · exact List.Perm.refl []
        · rw [List.concat_eq_append, List.getLast?_concat,
            List.dropLast_concat]
          exact (List.perm_append_singleton last init).symm
      · rw [swapRemove, if_neg hhead,
          List.erase_cons_tail (by simpa using hhead)]
        exact ih.cons head

end SwapRemove
