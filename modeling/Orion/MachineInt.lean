/-
Unsigned machine integers as natural numbers with explicit truncation.
-/
import Mathlib.Algebra.Group.Int.Defs
import Mathlib.Algebra.Group.Nat.Defs
import Mathlib.Tactic.Common

namespace MachineInt

/-- Truncation to 32 bits. -/
def u32 (n : Nat) : Nat := n % 2 ^ 32

/-- Truncation to 64 bits. -/
def u64 (n : Nat) : Nat := n % 2 ^ 64

/-- Unsigned 32-bit subtraction of two values below `2 ^ 32`. -/
def sub32 (a b : Nat) : Nat := u32 (2 ^ 32 + a - b)

/-- Unsigned 64-bit subtraction of two values below `2 ^ 64`. -/
def sub64 (a b : Nat) : Nat := u64 (2 ^ 64 + a - b)

/-- A 32-bit value read as a signed integer. -/
def i32 (n : Nat) : Int :=
  if u32 n < 2 ^ 31 then u32 n else (u32 n : Int) - 2 ^ 32

theorem u32_lt (n : Nat) : u32 n < 2 ^ 32 := Nat.mod_lt n (by decide)

theorem u32_of_lt {n : Nat} (hn : n < 2 ^ 32) : u32 n = n :=
  Nat.mod_eq_of_lt hn

theorem u64_of_lt {n : Nat} (hn : n < 2 ^ 64) : u64 n = n :=
  Nat.mod_eq_of_lt hn

theorem sub32_of_le {a b : Nat} (hle : b ≤ a) (ha : a < 2 ^ 32) :
    sub32 a b = a - b := by
  rw [sub32, u32]
  omega

/-- Stepping a pointer back undoes a step forward, also across the end. -/
theorem sub32_u32_succ (n : Nat) : sub32 (u32 (n + 1)) 1 = u32 n := by
  unfold sub32 u32
  omega

theorem sub64_of_le {a b : Nat} (hle : b ≤ a) (ha : a < 2 ^ 64) :
    sub64 a b = a - b := by
  rw [sub64, u64]
  omega

end MachineInt
