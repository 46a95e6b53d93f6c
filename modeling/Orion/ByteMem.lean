/-
Byte-addressed memory with little-endian 32-bit words.
-/
import Mathlib.Algebra.Group.Nat.Defs
import Mathlib.Tactic.Common

namespace ByteMem

/-- One byte for every address. -/
abbrev Mem := Nat → UInt8

/-- The word at address `a`. -/
def getWord (mem : Mem) (a : Nat) : Nat :=
  (mem a).toNat + 2 ^ 8 * (mem (a + 1)).toNat + 2 ^ 16 * (mem (a + 2)).toNat +
    2 ^ 24 * (mem (a + 3)).toNat

/-- Store the low 32 bits of `value` at address `a`. -/
def putWord (mem : Mem) (a value : Nat) : Mem := fun x =>
  if a ≤ x ∧ x < a + 4 then UInt8.ofNat (value / 2 ^ (8 * (x - a)))
  else mem x

def putByte (mem : Mem) (a : Nat) (value : UInt8) : Mem := fun x =>
  if x = a then value else mem x

/-- Store bytes at the addresses given with them. -/
def putBytes (mem : Mem) (writes : List (Nat × UInt8)) : Mem :=
  writes.foldl (fun mem write => putByte mem write.1 write.2) mem

theorem getWord_congr {mem mem' : Mem} {a : Nat}
    (hagree : ∀ x, a ≤ x → x < a + 4 → mem' x = mem x) :
    getWord mem' a = getWord mem a := by
  simp only [getWord]
  rw [hagree a (by omega) (by omega), hagree (a + 1) (by omega) (by omega),
    hagree (a + 2) (by omega) (by omega), hagree (a + 3) (by omega) (by omega)]

theorem getWord_putWord (mem : Mem) {a value : Nat} (hvalue : value < 2 ^ 32) :
    getWord (putWord mem a value) a = value := by
  simp [getWord, putWord, UInt8.toNat_ofNat']
  omega

theorem putWord_of_outside (mem : Mem) (value : Nat) {a x : Nat}
    (houtside : x < a ∨ a + 4 ≤ x) : putWord mem a value x = mem x :=
  if_neg (by omega)

theorem getWord_putWord_of_disjoint (mem : Mem) (value : Nat) {a b : Nat}
    (hdisjoint : b + 4 ≤ a ∨ a + 4 ≤ b) :
    getWord (putWord mem a value) b = getWord mem b := by
  apply getWord_congr
  intro x hlow hhigh
  exact putWord_of_outside mem value (by omega)

theorem putWord_comm (mem : Mem) (v w : Nat) {a b : Nat}
    (hdisjoint : b + 4 ≤ a ∨ a + 4 ≤ b) :
    putWord (putWord mem a v) b w = putWord (putWord mem b w) a v := by
  funext x
  simp only [putWord]
  split_ifs
  · omega
  all_goals rfl

theorem putByte_of_ne (mem : Mem) (value : UInt8) {a x : Nat} (hne : x ≠ a) :
    putByte mem a value x = mem x :=
  if_neg hne

theorem putBytes_of_outside (mem : Mem) {writes : List (Nat × UInt8)} {x : Nat}
    (houtside : ∀ write ∈ writes, write.1 ≠ x) :
    putBytes mem writes x = mem x := by
  induction writes generalizing mem with
  | nil => rfl
  | cons write rest ih =>
      have hrest := ih (putByte mem write.1 write.2) fun other hmem =>
        houtside other (List.mem_cons_of_mem write hmem)
      refine hrest.trans (putByte_of_ne mem _ ?_)
      exact (houtside write List.mem_cons_self).symm

end ByteMem
