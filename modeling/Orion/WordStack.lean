/-
A stack of 32-bit words that grows down in byte-addressed memory.
-/
import Orion.ByteMem

namespace WordStack

open ByteMem

/-- The memory and the stack pointer, the address of the last word pushed. -/
structure Stack where
  mem : Mem
  sp : UInt32

def Stack.push (s : Stack) (value : UInt32) : Stack :=
  ⟨putWord s.mem (s.sp - 4).toNat value.toNat, s.sp - 4⟩

/-- Push the words of a list, the first one first. -/
def Stack.pushAll (s : Stack) : List UInt32 → Stack
  | [] => s
  | value :: rest => (s.push value).pushAll rest

/-- The word at an address. -/
def word (mem : Mem) (a : UInt32) : UInt32 := UInt32.ofNat (getWord mem a.toNat)

/-- The next `n` words to be popped. -/
def popAll (mem : Mem) (sp : UInt32) : Nat → List UInt32
  | 0 => []
  | n + 1 => word mem sp :: popAll mem (sp + 4) n

section Addresses

variable {a : UInt32}

theorem toNat_sub_four (hroom : 4 ≤ a.toNat) : (a - 4).toNat = a.toNat - 4 :=
  UInt32.toNat_sub_of_le a 4 (UInt32.le_iff_toNat_le.mpr hroom)

theorem toNat_add_four (hroom : a.toNat + 4 < 2 ^ 32) :
    (a + 4).toNat = a.toNat + 4 := by
  rw [UInt32.toNat_add, Nat.mod_eq_of_lt]
  · rfl
  · exact hroom

theorem sub_four_add_four (a : UInt32) : a - 4 + 4 = a :=
  UInt32.sub_add_cancel a 4

end Addresses

theorem word_putWord (mem : Mem) (a value : UInt32) :
    word (putWord mem a.toNat value.toNat) a = value := by
  rw [word, getWord_putWord mem value.toNat_lt, UInt32.ofNat_toNat]

theorem popAll_congr {mem mem' : Mem} {n : Nat} {sp : UInt32}
    (hroom : sp.toNat + 4 * n < 2 ^ 32)
    (hagree : ∀ x, sp.toNat ≤ x → x < sp.toNat + 4 * n → mem' x = mem x) :
    popAll mem' sp n = popAll mem sp n := by
  induction n generalizing sp with
  | zero => rfl
  | succ n ih =>
      have hnext := @toNat_add_four sp (by omega)
      have hhead : word mem' sp = word mem sp := by
        rw [word, word, getWord_congr fun x hlow hhigh =>
          hagree x hlow (by omega)]
      rw [popAll, popAll, hhead, ih (by omega)]
      intro x hlow hhigh
      exact hagree x (by omega) (by omega)

/-- A store into one of the words on the stack. -/
theorem popAll_putWord (mem : Mem) {n i : Nat} {sp : UInt32} (value : UInt32)
    (hroom : sp.toNat + 4 * n < 2 ^ 32) (hi : i < n) :
    popAll (putWord mem (sp.toNat + 4 * i) value.toNat) sp n =
      (popAll mem sp n).set i value := by
  induction n generalizing sp i with
  | zero => cases hi
  | succ n ih =>
      have hnext := @toNat_add_four sp (by omega)
      cases i with
      | zero =>
          have hrest : popAll (putWord mem sp.toNat value.toNat) (sp + 4) n =
              popAll mem (sp + 4) n := by
            refine popAll_congr (by omega) fun x hlow hhigh => ?_
            exact putWord_of_outside mem _ (by omega)
          rw [Nat.mul_zero, Nat.add_zero, popAll, popAll, word_putWord, hrest,
            List.set_cons_zero]
      | succ i =>
          have hhead : word (putWord mem (sp.toNat + 4 * (i + 1)) value.toNat)
              sp = word mem sp := by
            rw [word, getWord_putWord_of_disjoint mem _ (by omega), word]
          have hrest := @ih i (sp + 4) (by omega) (by omega)
          rw [hnext, show sp.toNat + 4 + 4 * i = sp.toNat + 4 * (i + 1) by
            omega] at hrest
          rw [popAll, popAll, hhead, hrest, List.set_cons_succ]

section Pushes

variable (s : Stack)

theorem toNat_sp_pushAll {values : List UInt32}
    (hroom : 4 * values.length ≤ s.sp.toNat) :
    (s.pushAll values).sp.toNat = s.sp.toNat - 4 * values.length := by
  induction values generalizing s with
  | nil => rfl
  | cons value rest ih =>
      rw [List.length_cons] at hroom ⊢
      have hpush : (s.push value).sp.toNat = s.sp.toNat - 4 :=
        toNat_sub_four (by omega)
      rw [Stack.pushAll, ih _ (by omega), hpush]
      omega

/-- Pushes change the memory below the stack pointer only. -/
theorem pushAll_of_outside {values : List UInt32} {x : Nat}
    (hroom : 4 * values.length ≤ s.sp.toNat)
    (houtside : x < s.sp.toNat - 4 * values.length ∨ s.sp.toNat ≤ x) :
    (s.pushAll values).mem x = s.mem x := by
  induction values generalizing s with
  | nil => rfl
  | cons value rest ih =>
      rw [List.length_cons] at hroom houtside
      have hpush : (s.push value).sp.toNat = s.sp.toNat - 4 :=
        toNat_sub_four (by omega)
      rw [Stack.pushAll, ih _ (by omega) (by omega)]
      refine putWord_of_outside s.mem _ ?_
      rw [toNat_sub_four (by omega)]
      omega

/-- The words pushed come back in the reverse order, and then what was on the
stack before. -/
theorem popAll_pushAll_append {values : List UInt32} {m : Nat}
    (hroom : 4 * values.length ≤ s.sp.toNat)
    (hend : s.sp.toNat + 4 * m < 2 ^ 32) :
    popAll (s.pushAll values).mem (s.pushAll values).sp (values.length + m) =
      values.reverse ++ popAll s.mem s.sp m := by
  induction values generalizing s m with
  | nil => simp [Stack.pushAll]
  | cons value rest ih =>
      rw [List.length_cons] at hroom
      have hpush : (s.push value).sp.toNat = s.sp.toNat - 4 :=
        toNat_sub_four (by omega)
      have htop : popAll (s.push value).mem (s.push value).sp (m + 1) =
          value :: popAll s.mem s.sp m := by
        have hhead : word (s.push value).mem (s.push value).sp = value :=
          word_putWord s.mem (s.sp - 4) value
        have hrest : popAll (s.push value).mem s.sp m =
            popAll s.mem s.sp m := by
          refine popAll_congr hend fun x hlow _ => ?_
          refine putWord_of_outside s.mem _ ?_
          rw [toNat_sub_four (by omega)]
          omega
        rw [popAll, hhead, show (s.push value).sp + 4 = s.sp from
          sub_four_add_four s.sp, hrest]
      rw [List.length_cons, Nat.add_right_comm, Nat.add_assoc, Stack.pushAll,
        ih _ (by omega) (by omega), htop]
      simp

theorem popAll_pushAll {values : List UInt32}
    (hroom : 4 * values.length ≤ s.sp.toNat) :
    popAll (s.pushAll values).mem (s.pushAll values).sp values.length =
      values.reverse := by
  have hend : s.sp.toNat + 4 * 0 < 2 ^ 32 := s.sp.toNat_lt
  have happend := popAll_pushAll_append s hroom hend
  rwa [Nat.add_zero, popAll, List.append_nil] at happend

end Pushes

end WordStack
