/-
Paths along labelled edges from a root.  If every vertex has at most one edge
into it and the root has none, a vertex has at most one path.
-/
import Mathlib.Data.List.Basic

namespace EdgePaths

universe u v

variable {V : Type u} {L : Type v}

/-- The labels on a way from the root. -/
inductive Path (edge : V → L → V → Prop) (root : V) : List L → V → Prop where
  | here : Path edge root [] root
  | snoc {labels : List L} {label : L} {before after : V}
      (hpath : Path edge root labels before)
      (hedge : edge before label after) :
      Path edge root (labels ++ [label]) after

section Paths

variable {edge edge' : V → L → V → Prop} {root : V} {labels labels' : List L}
  {vertex vertex' : V}

theorem Path.mono (hpath : Path edge root labels vertex)
    (hedges : ∀ before label after, edge before label after →
      edge' before label after) : Path edge' root labels vertex := by
  induction hpath with
  | here => exact .here
  | snoc _ hedge ih => exact .snoc ih (hedges _ _ _ hedge)

/-- The labels out of a vertex are distinct, so a path has one end. -/
theorem Path.vertex_unique
    (hout : ∀ before label after after', edge before label after →
      edge before label after' → after = after')
    (hpath : Path edge root labels vertex)
    (hpath' : Path edge root labels vertex') : vertex = vertex' := by
  induction hpath generalizing vertex' with
  | here =>
      generalize hnil : ([] : List L) = labels' at hpath'
      cases hpath' with
      | here => rfl
      | snoc _ _ => exact absurd hnil.symm (List.append_ne_nil_of_right_ne_nil _
          (List.cons_ne_nil _ _))
  | @snoc labels label before after _ hedge ih =>
      generalize hsnoc : labels ++ [label] = all at hpath'
      cases hpath' with
      | here => exact absurd hsnoc (List.append_ne_nil_of_right_ne_nil _
          (List.cons_ne_nil _ _))
      | snoc hpath' hedge' =>
          obtain ⟨rfl, hlabel⟩ := List.append_inj' hsnoc rfl
          obtain rfl := List.cons.inj hlabel |>.1
          obtain rfl := ih hpath'
          exact hout _ _ _ _ hedge hedge'

end Paths

end EdgePaths
