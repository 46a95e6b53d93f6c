/-
The copies of libk.  `strncpy` ends its first loop on the terminator of the
source without counting it, so that the padding starts one byte late: a text
shorter than the bound is padded one byte beyond the bound.  `memmove` takes
its direction from the order of the pointers, so that no byte of the source is
overwritten before it is read.
-/
import Orion.ByteMem
import Orion.MachineInt

namespace Orion

open ByteMem (Mem putByte)
open MachineInt (u32 sub32)

/-- Memory, and the addresses stored to so far. -/
structure Stores where
  mem : Mem
  stored : List Nat

def Stores.put (s : Stores) (d : Nat) (c : UInt8) : Stores where
  mem := putByte s.mem d c
  stored := s.stored ++ [d]

/-- `while (n && (*d++ = *src++)) n--;`, with the `d` and the `n` it leaves. -/
def strncpyCopy : Nat → Stores → Nat → Nat → Stores × Nat × Nat
  | 0, s, d, _ => (s, d, 0)
  | n + 1, s, d, src =>
      let c := s.mem src
      if c = 0 then (s.put d c, d + 1, n + 1)
      else strncpyCopy n (s.put d c) (d + 1) (src + 1)

/-- `while (n--) *d++ = '\0';` -/
def strncpyPad : Nat → Stores → Nat → Stores
  | 0, s, _ => s
  | n + 1, s, d => strncpyPad n (s.put d 0) (d + 1)

/-- The memory after the call and the addresses it has stored to.  The value
returned is always `dst`. -/
def strncpy (mem : Mem) (dst src n : Nat) : Stores :=
  let copied := strncpyCopy n ⟨mem, []⟩ dst src
  strncpyPad copied.2.2 copied.1 copied.2.1

/-- The bytes of `text` and a terminator stand at `src`. -/
structure HoldsString (mem : Mem) (src : Nat) (text : List UInt8) : Prop where
  nonzero : 0 ∉ text
  bytes : ∀ i (h : i < text.length), mem (src + i) = text[i]
  ends : mem (src + text.length) = 0

/-- Store a text byte by byte. -/
def Stores.putText : Stores → Nat → List UInt8 → Stores
  | s, _, [] => s
  | s, d, c :: text => (s.put d c).putText (d + 1) text

namespace Stores

theorem putText_append (s : Stores) (d : Nat) (text text' : List UInt8) :
    s.putText d (text ++ text') =
      (s.putText d text).putText (d + text.length) text' := by
  induction text generalizing s d with
  | nil => rfl
  | cons c text ih =>
      rw [List.cons_append, putText, ih, List.length_cons, Nat.add_assoc,
        Nat.add_comm 1]
      rfl

theorem putText_stored (s : Stores) (d : Nat) (text : List UInt8) :
    (s.putText d text).stored = s.stored ++ List.range' d text.length := by
  induction text generalizing s d with
  | nil => simp [putText]
  | cons c text ih =>
      rw [putText, ih, List.length_cons, List.range'_succ]
      simp [put]

theorem putText_outside (s : Stores) {d a : Nat} {text : List UInt8}
    (houtside : a < d ∨ d + text.length ≤ a) :
    (s.putText d text).mem a = s.mem a := by
  induction text generalizing s d with
  | nil => rfl
  | cons c text ih =>
      rw [List.length_cons] at houtside
      rw [putText, ih (s.put d c) (by omega)]
      exact ByteMem.putByte_of_ne s.mem c (by omega)

theorem putText_inside (s : Stores) (d : Nat) {text : List UInt8} {i : Nat}
    (hi : i < text.length) : (s.putText d text).mem (d + i) = text[i] := by
  induction text generalizing s d i with
  | nil => cases hi
  | cons c text ih =>
      rw [putText]
      cases i with
      | zero =>
          rw [putText_outside (s.put d c) (by omega)]
          exact if_pos rfl
      | succ i =>
          have hnext : d + (i + 1) = d + 1 + i := by omega
          rw [hnext, ih (s.put d c) (d + 1) (Nat.lt_of_succ_lt_succ hi)]
          rfl

end Stores

theorem strncpyPad_eq_putText (n : Nat) (s : Stores) (d : Nat) :
    strncpyPad n s d = s.putText d (List.replicate n 0) := by
  induction n generalizing s d with
  | zero => rfl
  | succ n ih => exact ih (s.put d 0) (d + 1)

section Copy

variable {mem : Mem} {src : Nat} {text : List UInt8}

theorem HoldsString.congr {mem' : Mem} (hsrc : HoldsString mem src text)
    (hagree : ∀ j ≤ text.length, mem' (src + j) = mem (src + j)) :
    HoldsString mem' src text :=
  ⟨hsrc.nonzero, fun i h => (hagree i (Nat.le_of_lt h)).trans (hsrc.bytes i h),
    (hagree _ (Nat.le_refl _)).trans hsrc.ends⟩

theorem HoldsString.tail {c : UInt8} (hsrc : HoldsString mem src (c :: text)) :
    HoldsString mem (src + 1) text where
  nonzero := fun hmem => hsrc.nonzero (List.mem_cons_of_mem c hmem)
  bytes := fun i h => by
    rw [Nat.add_assoc, Nat.add_comm 1]
    exact hsrc.bytes (i + 1) (Nat.succ_lt_succ h)
  ends := by
    rw [Nat.add_assoc, Nat.add_comm 1]
    exact hsrc.ends

/-- The first loop stops at the bound, or on the terminator, which it copies
without counting it. -/
theorem strncpyCopy_spec {n d : Nat} {s : Stores}
    (hsrc : HoldsString s.mem src text)
    (hapart : ∀ i < n, ∀ j ≤ text.length, d + i ≠ src + j) :
    strncpyCopy n s d src =
      if n ≤ text.length then (s.putText d (text.take n), d + n, 0)
      else (s.putText d (text ++ [0]), d + (text.length + 1),
        n - text.length) := by
  induction n generalizing s d src text with
  | zero => simp [strncpyCopy, Stores.putText]
  | succ n ih =>
      cases text with
      | nil =>
          have hends : s.mem src = 0 := hsrc.ends
          simp [strncpyCopy, hends, Stores.putText]
      | cons c text =>
          have hread : s.mem src = c := hsrc.bytes 0 (Nat.succ_pos _)
          have hne : c ≠ 0 := fun hzero =>
            hsrc.nonzero (hzero ▸ List.mem_cons_self)
          have hkept : HoldsString (s.put d c).mem (src + 1) text := by
            refine hsrc.tail.congr fun j hj => ?_
            apply ByteMem.putByte_of_ne
            have := hapart 0 n.succ_pos (j + 1) (Nat.succ_le_succ hj)
            omega
          have hrest : ∀ i < n, ∀ j ≤ text.length,
              d + 1 + i ≠ src + 1 + j := by
            intro i hi j hj
            have := hapart (i + 1) (Nat.succ_lt_succ hi) (j + 1)
              (Nat.succ_le_succ hj)
            omega
          rw [strncpyCopy, hread, if_neg hne, ih hkept hrest]
          simp only [List.length_cons, Nat.add_le_add_iff_right,
            List.take_succ_cons, List.cons_append, Stores.putText,
            Nat.add_sub_add_right]
          split_ifs <;> simp only [Prod.mk.injEq, true_and, and_true] <;> omega

/-- Everything `strncpy` stores. -/
theorem strncpy_eq_putText {dst n : Nat} (hsrc : HoldsString mem src text)
    (hapart : ∀ i < n, ∀ j ≤ text.length, dst + i ≠ src + j) :
    strncpy mem dst src n = Stores.putText ⟨mem, []⟩ dst
      (if n ≤ text.length then text.take n
        else text ++ List.replicate (n - text.length + 1) 0) := by
  have hcopy := strncpyCopy_spec (s := ⟨mem, []⟩) hsrc hapart
  rw [strncpy, hcopy]
  split_ifs with hle
  · rfl
  · have hzeros : text ++ List.replicate (n - text.length + 1) 0 =
        text ++ [0] ++ List.replicate (n - text.length) 0 :=
      List.append_cons text 0 _
    rw [strncpyPad_eq_putText, hzeros, Stores.putText_append _ _ (text ++ [0]),
      List.length_append]
    rfl

/-- `strncpy` stays inside its bound and fills it as specified exactly for a
source whose terminator lies outside the bound. -/
theorem strncpy_bounded_iff (mem : Mem) (dst src n : Nat) (text : List UInt8)
    (hsrc : HoldsString mem src text)
    (hapart : ∀ i < n, ∀ j ≤ text.length, dst + i ≠ src + j) :
    ((∀ a ∈ (strncpy mem dst src n).stored, dst ≤ a ∧ a < dst + n) ∧
      (∀ i, (h : i < text.length) → i < n →
        (strncpy mem dst src n).mem (dst + i) = text[i]) ∧
      (∀ i, text.length ≤ i → i < n →
        (strncpy mem dst src n).mem (dst + i) = 0) ∧
      ∀ a, dst + n ≤ a → (strncpy mem dst src n).mem a = mem a) ↔
    n ≤ text.length := by
  rw [strncpy_eq_putText hsrc hapart]
  constructor
  · rintro ⟨hstored, -⟩
    by_contra hshort
    have hbeyond := hstored (dst + n) (by
      rw [if_neg hshort, Stores.putText_stored]
      simp
      omega)
    omega
  · intro hle
    rw [if_pos hle]
    have hlength : (text.take n).length = n := List.length_take_of_le hle
    refine ⟨?_, ?_, fun i hlow hi => absurd hi (by omega), ?_⟩
    · intro a ha
      rw [Stores.putText_stored, hlength] at ha
      simpa using ha
    · intro i h hi
      rw [Stores.putText_inside _ dst (by omega), List.getElem_take]
    · intro a ha
      exact Stores.putText_outside _ (by omega)

end Copy

/-- `while (n--) *d++ = *s++;` -/
def memmoveUp : Nat → Mem → Nat → Nat → Mem
  | 0, mem, _, _ => mem
  | n + 1, mem, d, s =>
      memmoveUp n (putByte mem d (mem s)) (u32 (d + 1)) (u32 (s + 1))

/-- `while (n--) *--d = *--s;` -/
def memmoveDown : Nat → Mem → Nat → Nat → Mem
  | 0, mem, _, _ => mem
  | n + 1, mem, d, s =>
      memmoveDown n (putByte mem (sub32 d 1) (mem (sub32 s 1))) (sub32 d 1)
        (sub32 s 1)

/-- The memory after the call.  The value returned is always `dst`. -/
def memmove (mem : Mem) (dst src n : Nat) : Mem :=
  if dst < src then memmoveUp n mem dst src
  else memmoveDown n mem (u32 (dst + n)) (u32 (src + n))

/-- What a move is for: the bytes of the source range as they are in `mem`, at
the destination range, and nothing else changed. -/
def blockMoved (mem : Mem) (dst src n : Nat) : Mem := fun a =>
  if dst ≤ a ∧ a < dst + n then mem (src + (a - dst)) else mem a

section Move

variable {mem : Mem} {d s n : Nat}

theorem blockMoved_zero (mem : Mem) (d s : Nat) :
    blockMoved mem d s 0 = mem := by
  funext a
  exact if_neg (by omega)

/-- Upwards, the byte stored first is not among those still to be read. -/
theorem blockMoved_first (mem : Mem) (n : Nat) (hle : d ≤ s) :
    blockMoved (putByte mem d (mem s)) (d + 1) (s + 1) n =
      blockMoved mem d s (n + 1) := by
  funext a
  unfold blockMoved
  by_cases hfirst : a = d
  · rw [if_neg (by omega), if_pos (by omega), hfirst, Nat.sub_self]
    exact if_pos rfl
  · by_cases hrest : d + 1 ≤ a ∧ a < d + 1 + n
    · have hread : s + 1 + (a - (d + 1)) = s + (a - d) := by omega
      rw [if_pos hrest, if_pos (by omega), hread]
      exact ByteMem.putByte_of_ne mem (mem s) (by omega)
    · rw [if_neg hrest, if_neg (by omega)]
      exact ByteMem.putByte_of_ne mem (mem s) hfirst

/-- Downwards, the byte stored at the end of the range is not among those
still to be read. -/
theorem blockMoved_last (mem : Mem) (n : Nat) (hle : s ≤ d) :
    blockMoved (putByte mem (d + n) (mem (s + n))) d s n =
      blockMoved mem d s (n + 1) := by
  funext a
  unfold blockMoved
  by_cases hlast : a = d + n
  · rw [if_neg (by omega), if_pos (by omega), hlast, Nat.add_sub_cancel_left]
    exact if_pos rfl
  · by_cases hrest : d ≤ a ∧ a < d + n
    · rw [if_pos hrest, if_pos (by omega)]
      exact ByteMem.putByte_of_ne mem (mem (s + n)) (by omega)
    · rw [if_neg hrest, if_neg (by omega)]
      exact ByteMem.putByte_of_ne mem (mem (s + n)) hlast

theorem memmoveUp_eq_blockMoved (hle : d ≤ s) (hd : d + n ≤ 2 ^ 32)
    (hs : s + n ≤ 2 ^ 32) : memmoveUp n mem d s = blockMoved mem d s n := by
  induction n generalizing mem d s with
  | zero => exact (blockMoved_zero mem d s).symm
  | succ n ih =>
      rw [← blockMoved_first mem n hle, memmoveUp]
      cases n with
      | zero => exact (blockMoved_zero _ (d + 1) (s + 1)).symm
      | succ n =>
          -- a byte is left, so that neither pointer has reached the end
          rw [MachineInt.u32_of_lt (show d + 1 < 2 ^ 32 by omega),
            MachineInt.u32_of_lt (show s + 1 < 2 ^ 32 by omega)]
          exact ih (Nat.succ_le_succ hle) (by omega) (by omega)

theorem memmoveDown_eq_blockMoved (hle : s ≤ d) (hd : d + n ≤ 2 ^ 32)
    (hs : s + n ≤ 2 ^ 32) :
    memmoveDown n mem (u32 (d + n)) (u32 (s + n)) = blockMoved mem d s n := by
  induction n generalizing mem with
  | zero => exact (blockMoved_zero mem d s).symm
  | succ n ih =>
      rw [memmoveDown, ← Nat.add_assoc d, ← Nat.add_assoc s,
        MachineInt.sub32_u32_succ, MachineInt.sub32_u32_succ,
        ih (by omega) (by omega),
        MachineInt.u32_of_lt (show d + n < 2 ^ 32 by omega),
        MachineInt.u32_of_lt (show s + n < 2 ^ 32 by omega)]
      exact blockMoved_last mem n hle

theorem memmove_eq_blockMoved (hd : d + n ≤ 2 ^ 32) (hs : s + n ≤ 2 ^ 32) :
    memmove mem d s n = blockMoved mem d s n := by
  unfold memmove
  split_ifs with hlt
  · exact memmoveUp_eq_blockMoved (Nat.le_of_lt hlt) hd hs
  · exact memmoveDown_eq_blockMoved (Nat.le_of_not_lt hlt) hd hs

end Move

/-- `memmove` is safe for every overlap of ranges that do not wrap. -/
theorem memmove_overlap_safe (mem : Mem) (dst src n : Nat)
    (hdst : dst + n ≤ 2 ^ 32) (hsrc : src + n ≤ 2 ^ 32) :
    (∀ i < n, memmove mem dst src n (dst + i) = mem (src + i)) ∧
      ∀ a, a < dst ∨ dst + n ≤ a → memmove mem dst src n a = mem a := by
  rw [memmove_eq_blockMoved hdst hsrc]
  constructor
  · intro i hi
    rw [blockMoved, if_pos (by omega), Nat.add_sub_cancel_left]
  · intro a houtside
    exact if_neg (by omega)

namespace LibkStringWitness

/-- The text `ab` at address 100, 7 everywhere else. -/
def memory : Mem := fun a =>
  if a = 100 then 97 else if a = 101 then 98 else if a = 102 then 0 else 7

theorem memory_holds : HoldsString memory 100 [97, 98] :=
  ⟨by decide, by decide, rfl⟩

theorem full_field : (2 : Nat) ≤ [97, 98].length ∧
    ∀ a, 202 ≤ a → (strncpy memory 200 100 2).mem a = memory a := by
  refine ⟨by decide, fun a ha => ?_⟩
  have hcopied := (strncpy_bounded_iff memory 200 100 2 [97, 98] memory_holds
    (by intro i hi j hj; simp at hj; omega)).mpr (by decide)
  exact hcopied.2.2.2 a ha

/-- A field of three bytes is padded with two zeros, the second of them behind
the field. -/
theorem short_text_overruns : memory 203 = 7 ∧
    (strncpy memory 200 100 3).stored = [200, 201, 202, 203] ∧
    (strncpy memory 200 100 3).mem 203 = 0 := by
  decide +kernel

/-- One byte up and one byte down, both onto the source itself, and up to the
last byte of the address space. -/
theorem overlapping_moves :
    memmove memory 101 100 2 102 = 98 ∧ memmove memory 99 100 2 100 = 98 ∧
      memmove memory (2 ^ 32 - 2) (2 ^ 32 - 3) 2 0 = memory 0 := by
  have hup := memmove_overlap_safe memory 101 100 2 (by decide) (by decide)
  have hdown := memmove_overlap_safe memory 99 100 2 (by decide) (by decide)
  have hend := memmove_overlap_safe memory (2 ^ 32 - 2) (2 ^ 32 - 3) 2
    (by decide) (by decide)
  exact ⟨hup.1 1 (by decide), hdown.1 1 (by decide), hend.2 0 (by decide)⟩

end LibkStringWitness

end Orion
