/-
Block transfers into a memory of cells.  A transfer stores its values one
after the other, each through its own target; a missing target stops it.  What
a finished transfer, or a log of finished transfers, leaves in a cell is the
value stored there last.
-/
import Mathlib.Data.Option.Basic

namespace BlockStore

universe u v

/-- A transfer of `len` values: value `i` goes to the cell `target i`. -/
structure Transfer (P : Type u) (B : Type v) where
  len : Nat
  target : Nat → Option P
  value : Nat → B

section Transfer

variable {P : Type u} {B : Type v} [DecidableEq P]

/-- The stores of the first `n` values. -/
def storeFirst (transfer : Transfer P B) (mem : P → B) : Nat → Option (P → B)
  | 0 => some mem
  | n + 1 =>
      (storeFirst transfer mem n).bind fun mem =>
        (transfer.target n).map fun cell =>
          Function.update mem cell (transfer.value n)

def run (transfer : Transfer P B) (mem : P → B) : Option (P → B) :=
  storeFirst transfer mem transfer.len

/-- The last of the first `n` values that goes to `cell`. -/
def lastAmong (transfer : Transfer P B) (cell : P) : Nat → Option B
  | 0 => none
  | n + 1 =>
      if transfer.target n = some cell then some (transfer.value n)
      else lastAmong transfer cell n

/-- The value the transfer leaves in `cell`, if it stores there. -/
def lastValue (transfer : Transfer P B) (cell : P) : Option B :=
  lastAmong transfer cell transfer.len

/-- The value a log of transfers, latest first, leaves in `cell`. -/
def lastStored (log : List (Transfer P B)) (cell : P) : Option B :=
  log.findSome? fun transfer => lastValue transfer cell

variable {transfer : Transfer P B} {mem mem' : P → B} {cell : P} {n : Nat}

theorem storeFirst_succ_eq_some :
    storeFirst transfer mem (n + 1) = some mem' ↔
      ∃ mid, storeFirst transfer mem n = some mid ∧
        ∃ cell, transfer.target n = some cell ∧
          Function.update mid cell (transfer.value n) = mem' := by
  simp only [storeFirst, Option.bind_eq_some_iff, Option.map_eq_some_iff]

theorem storeFirst_apply (hstore : storeFirst transfer mem n = some mem')
    (cell : P) : mem' cell = (lastAmong transfer cell n).getD (mem cell) := by
  induction n generalizing mem' with
  | zero =>
      obtain rfl := Option.some.inj hstore
      rfl
  | succ n ih =>
      obtain ⟨mid, hmid, target, htarget, rfl⟩ :=
        storeFirst_succ_eq_some.mp hstore
      rw [lastAmong, htarget]
      by_cases heq : target = cell
      · rw [heq, if_pos rfl, Function.update_self, Option.getD_some]
      · rw [if_neg (fun h => heq (Option.some.inj h)),
          Function.update_of_ne (Ne.symm heq)]
        exact ih hmid

/-- What a finished transfer leaves in every cell. -/
theorem run_apply (hrun : run transfer mem = some mem') (cell : P) :
    mem' cell = (lastValue transfer cell).getD (mem cell) :=
  storeFirst_apply hrun cell

theorem storeFirst_target (hstore : storeFirst transfer mem n = some mem')
    {i : Nat} (hi : i < n) : ∃ cell, transfer.target i = some cell := by
  induction n generalizing mem' with
  | zero => exact absurd hi (Nat.not_lt_zero i)
  | succ n ih =>
      obtain ⟨mid, hmid, target, htarget, -⟩ :=
        storeFirst_succ_eq_some.mp hstore
      rcases Nat.lt_succ_iff_lt_or_eq.mp hi with hlt | rfl
      · exact ih hmid hlt
      · exact ⟨target, htarget⟩

theorem lastAmong_eq_none (hmiss : ∀ i < n, transfer.target i ≠ some cell) :
    lastAmong transfer cell n = none := by
  induction n with
  | zero => rfl
  | succ n ih =>
      rw [lastAmong, if_neg (hmiss n (Nat.lt_succ_self n))]
      exact ih fun i hi => hmiss i (Nat.lt_succ_of_lt hi)

/-- A cell that is the target of one value only. -/
theorem lastAmong_eq_some {i : Nat} (hi : i < n)
    (htarget : transfer.target i = some cell)
    (honly : ∀ j < n, transfer.target j = some cell → j = i) :
    lastAmong transfer cell n = some (transfer.value i) := by
  induction n with
  | zero => exact absurd hi (Nat.not_lt_zero i)
  | succ n ih =>
      rw [lastAmong]
      by_cases hlast : transfer.target n = some cell
      · rw [if_pos hlast, honly n (Nat.lt_succ_self n) hlast]
      · rw [if_neg hlast]
        apply ih
        · rcases Nat.lt_succ_iff_lt_or_eq.mp hi with hlt | rfl
          · exact hlt
          · exact absurd htarget hlast
        · exact fun j hj => honly j (Nat.lt_succ_of_lt hj)

/-- The newest transfer that stores to a cell decides what is in it. -/
theorem lastStored_cons_getD (log : List (Transfer P B)) (default : B) :
    (lastStored (transfer :: log) cell).getD default =
      (lastValue transfer cell).getD ((lastStored log cell).getD default) := by
  unfold lastStored
  rw [List.findSome?_cons]
  cases lastValue transfer cell <;> rfl

end Transfer

end BlockStore
