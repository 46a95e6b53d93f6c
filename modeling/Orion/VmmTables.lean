/-
Page tables as words in physical memory: tables in different frames share no
slot, and what the walk of the hardware finds after one entry is written.
-/
import Orion.PmmInvariant
import Orion.Vmm

namespace Orion

open MachineInt

/-- The entry is present. -/
def IsPresent (entry : BitVec 32) : Prop := entry &&& vmmPresent ≠ 0

instance (entry : BitVec 32) : Decidable (IsPresent entry) :=
  inferInstanceAs (Decidable (_ ≠ _))

/-- The entries that serve `virt`, in the directory and in its table, if both
are present. -/
def walk (mem : PhysMem) (pd virt : Nat) : Option (BitVec 32 × BitVec 32) :=
  let pde := mem (slotAddr pd (pdIndex virt))
  if IsPresent pde then
    let pte := mem (slotAddr (entryTable pde) (ptIndex virt))
    if IsPresent pte then some (pde, pte) else none
  else none

/-- The address the hardware uses for `virt` under the directory `pd`. -/
def translate (mem : PhysMem) (pd virt : Nat) : Option Nat :=
  (walk mem pd virt).map fun entries => entryTable entries.2 + virt % 2 ^ 12

/-- A page-aligned physical address. -/
def IsFrame (addr : Nat) : Prop := addr % pageSize = 0 ∧ addr < 2 ^ 32

/-- Write the first `n` entries of a table. -/
def fillSlots (mem : PhysMem) (table : Nat) (entry : Nat → BitVec 32)
    (n : Nat) : PhysMem :=
  (List.range n).foldl
    (fun mem i => Function.update mem (slotAddr table i) (entry i)) mem

section Slots

variable {mem : PhysMem} {table table' i j n : Nat} {entry : Nat → BitVec 32}

theorem slotAddr_inj (htable : IsFrame table) (htable' : IsFrame table')
    (hi : i < 1024) (hj : j < 1024) :
    slotAddr table i = slotAddr table' j ↔ table = table' ∧ i = j := by
  obtain ⟨haligned, -⟩ := htable
  obtain ⟨haligned', -⟩ := htable'
  unfold slotAddr
  simp only [pageSize] at haligned haligned'
  omega

theorem fillSlots_succ : fillSlots mem table entry (n + 1) =
    Function.update (fillSlots mem table entry n) (slotAddr table n)
      (entry n) := by
  rw [fillSlots, List.range_succ, List.foldl_append]
  rfl

theorem fillSlots_of_ne {addr : Nat}
    (hne : ∀ i < n, addr ≠ slotAddr table i) :
    fillSlots mem table entry n addr = mem addr := by
  induction n with
  | zero => rfl
  | succ n ih =>
      rw [fillSlots_succ, Function.update_of_ne (hne n (Nat.lt_succ_self n))]
      exact ih fun i hi => hne i (Nat.lt_succ_of_lt hi)

theorem fillSlots_slot (hi : i < n) :
    fillSlots mem table entry n (slotAddr table i) = entry i := by
  induction n with
  | zero => exact absurd hi (Nat.not_lt_zero i)
  | succ n ih =>
      rw [fillSlots_succ]
      by_cases heq : i = n
      · rw [heq, Function.update_self]
      · rw [Function.update_of_ne]
        · exact ih (by omega)
        · unfold slotAddr
          omega

/-- Filling a table leaves the other tables alone. -/
theorem fillSlots_other (htable : IsFrame table) (htable' : IsFrame table')
    (hne : table' ≠ table) (hn : n ≤ 1024) (hj : j < 1024) :
    fillSlots mem table entry n (slotAddr table' j) =
      mem (slotAddr table' j) := by
  apply fillSlots_of_ne
  intro i hi heq
  exact hne ((slotAddr_inj htable' htable hj (by omega)).mp heq).1

theorem clearTable_eq (mem : PhysMem) (table : Nat) :
    clearTable mem table = fillSlots mem table (fun _ => 0#32) 1024 := rfl

theorem identityTable_eq (mem : PhysMem) (table : Nat) :
    identityTable mem table = fillSlots mem table
      (fun i => BitVec.ofNat 32 (i * pageSize) ||| vmmKernelRw) 1024 := rfl

end Slots

section Entries

theorem vmmAddrMask_bit : ∀ i < 32, vmmAddrMask.getLsbD i = decide (12 ≤ i) := by
  decide

theorem testBit_of_isFrame {table : Nat} (htable : IsFrame table) {i : Nat}
    (hi : i < 12) : table.testBit i = false := by
  have hmul : table = 2 ^ 12 * (table / 2 ^ 12) := by
    have haligned := htable.1
    simp only [pageSize] at haligned
    omega
  rw [hmul, Nat.testBit_two_pow_mul]
  simp [Nat.not_le.mpr hi]

theorem entryTable_isFrame (entry : BitVec 32) : IsFrame (entryTable entry) := by
  refine ⟨?_, (entry &&& vmmAddrMask).isLt⟩
  change entryTable entry % 2 ^ 12 = 0
  apply Nat.eq_of_testBit_eq
  intro i
  rw [Nat.testBit_mod_two_pow, Nat.zero_testBit]
  by_cases hi : i < 12
  · have hmask := vmmAddrMask_bit i (by omega)
    rw [decide_eq_false (by omega)] at hmask
    change (decide (i < 12) && (entry &&& vmmAddrMask).getLsbD i) = false
    rw [BitVec.getLsbD_and, hmask, Bool.and_false, Bool.and_false]
  · rw [decide_eq_false hi, Bool.false_and]

theorem entryTable_or {table : Nat} (htable : IsFrame table)
    {flags : BitVec 32} (hflags : flags &&& vmmAddrMask = 0#32) :
    entryTable (BitVec.ofNat 32 table ||| flags) = table := by
  have heq : (BitVec.ofNat 32 table ||| flags) &&& vmmAddrMask =
      BitVec.ofNat 32 table := by
    apply BitVec.eq_of_getLsbD_eq
    intro i hi
    have hflag := congrArg (fun word => word.getLsbD i) hflags
    simp only [BitVec.getLsbD_and, BitVec.getLsbD_zero] at hflag
    rw [BitVec.getLsbD_and, BitVec.getLsbD_or, Bool.and_or_distrib_right, hflag,
      Bool.or_false, vmmAddrMask_bit i hi]
    by_cases hlow : i < 12
    · rw [BitVec.getLsbD_ofNat, testBit_of_isFrame htable hlow]
      simp
    · rw [decide_eq_true (Nat.le_of_not_lt hlow), Bool.and_true]
  rw [entryTable, heq, BitVec.toNat_ofNat, Nat.mod_eq_of_lt htable.2]

theorem or_and_vmmAddrMask {a b : BitVec 32} (ha : a &&& vmmAddrMask = 0#32)
    (hb : b &&& vmmAddrMask = 0#32) : (a ||| b) &&& vmmAddrMask = 0#32 := by
  apply BitVec.eq_of_getLsbD_eq
  intro i _
  have hai := congrArg (fun word => word.getLsbD i) ha
  have hbi := congrArg (fun word => word.getLsbD i) hb
  simp only [BitVec.getLsbD_and, BitVec.getLsbD_zero] at hai hbi
  rw [BitVec.getLsbD_and, BitVec.getLsbD_or, Bool.and_or_distrib_right, hai, hbi,
    BitVec.getLsbD_zero, Bool.or_false]

/-- The entry for a new table. -/
theorem entryTable_new {table : Nat} (htable : IsFrame table)
    (flags : BitVec 32) :
    entryTable (BitVec.ofNat 32 table ||| vmmPresent ||| vmmWritable |||
      (flags &&& vmmUser)) = table := by
  rw [BitVec.or_assoc, BitVec.or_assoc]
  apply entryTable_or htable
  have huser : (flags &&& vmmUser) &&& vmmAddrMask = 0#32 := by
    rw [BitVec.and_assoc, show vmmUser &&& vmmAddrMask = 0#32 by decide,
      BitVec.and_zero]
  exact or_and_vmmAddrMask (by decide) (or_and_vmmAddrMask (by decide) huser)

theorem isPresent_iff {entry : BitVec 32} :
    IsPresent entry ↔ entry.getLsbD 0 = true := by
  have hbit : ∀ i < 32, vmmPresent.getLsbD i = decide (i = 0) := by decide
  rw [IsPresent, ← not_iff_not, not_not, Bool.not_eq_true]
  constructor
  · intro hzero
    have hfirst := congrArg (fun word => word.getLsbD 0) hzero
    rw [BitVec.getLsbD_and, hbit 0 (by decide), decide_eq_true rfl,
      Bool.and_true] at hfirst
    exact hfirst
  · intro hfirst
    apply BitVec.eq_of_getLsbD_eq
    intro i hi
    rw [BitVec.getLsbD_and, hbit i hi]
    by_cases heq : i = 0
    · rw [heq, hfirst]
      rfl
    · simp [heq]

theorem isPresent_or {entry : BitVec 32} (hentry : IsPresent entry)
    (flags : BitVec 32) : IsPresent (entry ||| flags) := by
  rw [isPresent_iff] at hentry ⊢
  rw [BitVec.getLsbD_or, hentry, Bool.true_or]

theorem isPresent_or_right (entry : BitVec 32) {flags : BitVec 32}
    (hflags : IsPresent flags) : IsPresent (entry ||| flags) := by
  rw [isPresent_iff] at hflags ⊢
  rw [BitVec.getLsbD_or, hflags, Bool.or_true]

theorem isPresent_vmmPresent : IsPresent vmmPresent := by decide

theorem not_isPresent_zero : ¬ IsPresent 0#32 := by decide

theorem isPresent_new (table : Nat) (flags : BitVec 32) :
    IsPresent (BitVec.ofNat 32 table ||| vmmPresent ||| vmmWritable |||
      (flags &&& vmmUser)) :=
  isPresent_or (isPresent_or (isPresent_or_right _ isPresent_vmmPresent) _) _

end Entries

section Walks

variable {mem mem' : PhysMem} {pd virt : Nat}

theorem pdIndex_lt (hvirt : virt < 2 ^ 32) : pdIndex virt < 1024 := by
  unfold pdIndex
  omega

theorem ptIndex_lt (virt : Nat) : ptIndex virt < 1024 := Nat.mod_lt _ (by decide)

/-- A page is told by its two indices. -/
theorem pageFloor_eq_iff {addr : Nat} : pageFloor addr = pageFloor virt ↔
    pdIndex addr = pdIndex virt ∧ ptIndex addr = ptIndex virt := by
  unfold pageFloor pdIndex ptIndex pageSize
  omega

/-- The walk looks at two slots. -/
theorem walk_congr
    (hpde : mem' (slotAddr pd (pdIndex virt)) = mem (slotAddr pd (pdIndex virt)))
    (hpte : IsPresent (mem (slotAddr pd (pdIndex virt))) →
      mem' (slotAddr (entryTable (mem (slotAddr pd (pdIndex virt))))
        (ptIndex virt)) =
      mem (slotAddr (entryTable (mem (slotAddr pd (pdIndex virt))))
        (ptIndex virt))) :
    walk mem' pd virt = walk mem pd virt := by
  unfold walk
  dsimp only
  rw [hpde]
  by_cases hpresent : IsPresent (mem (slotAddr pd (pdIndex virt)))
  · rw [if_pos hpresent, if_pos hpresent, hpte hpresent]
  · rw [if_neg hpresent, if_neg hpresent]

/-- The frame holds a table of the directory. -/
def IsTable (mem : PhysMem) (pd frame : Nat) : Prop :=
  ∃ i < 1024, IsPresent (mem (slotAddr pd i)) ∧
    entryTable (mem (slotAddr pd i)) = frame

theorem isTable_congr
    (hslots : ∀ i < 1024, mem' (slotAddr pd i) = mem (slotAddr pd i))
    {frame : Nat} : IsTable mem' pd frame ↔ IsTable mem pd frame := by
  constructor
  · rintro ⟨i, hi, hpresent, heq⟩
    rw [hslots i hi] at hpresent heq
    exact ⟨i, hi, hpresent, heq⟩
  · rintro ⟨i, hi, hpresent, heq⟩
    rw [← hslots i hi] at hpresent heq
    exact ⟨i, hi, hpresent, heq⟩

theorem IsTable.isFrame {table : Nat} (htable : IsTable mem pd table) :
    IsFrame table := by
  obtain ⟨_, _, _, rfl⟩ := htable
  exact entryTable_isFrame _

/-- A directory whose tables are frames of their own. -/
structure Directory (mem : PhysMem) (pd : Nat) : Prop where
  frame : IsFrame pd
  apart : ¬ IsTable mem pd pd
  inj : ∀ i < 1024, ∀ j < 1024, IsPresent (mem (slotAddr pd i)) →
    IsPresent (mem (slotAddr pd j)) →
    entryTable (mem (slotAddr pd i)) = entryTable (mem (slotAddr pd j)) → i = j

theorem Directory.congr (hdir : Directory mem pd)
    (hslots : ∀ i < 1024, mem' (slotAddr pd i) = mem (slotAddr pd i)) :
    Directory mem' pd := by
  refine ⟨hdir.frame, fun h => hdir.apart ((isTable_congr hslots).mp h), ?_⟩
  intro i hi j hj
  rw [hslots i hi, hslots j hj]
  exact hdir.inj i hi j hj

/-- Writing into a table leaves the slots of every other frame alone. -/
theorem update_table_of_ne {table frame i j : Nat} (htable : IsFrame table)
    (hframe : IsFrame frame) (hne : frame ≠ table) (hi : i < 1024)
    (hj : j < 1024) (entry : BitVec 32) :
    Function.update mem (slotAddr table j) entry (slotAddr frame i) =
      mem (slotAddr frame i) := by
  apply Function.update_of_ne
  intro heq
  exact hne ((slotAddr_inj hframe htable hi hj).mp heq).1

theorem Directory.slot_update (hdir : Directory mem pd) {table i j : Nat}
    (htable : IsTable mem pd table) (hi : i < 1024) (hj : j < 1024)
    (entry : BitVec 32) :
    Function.update mem (slotAddr table j) entry (slotAddr pd i) =
      mem (slotAddr pd i) := by
  apply update_table_of_ne htable.isFrame hdir.frame _ hi hj
  rintro rfl
  exact hdir.apart htable

/-- Writing an entry of a table changes the walk for its page only. -/
theorem Directory.walk_update (hdir : Directory mem pd) (hvirt : virt < 2 ^ 32)
    (hpresent : IsPresent (mem (slotAddr pd (pdIndex virt))))
    (entry : BitVec 32) {addr : Nat} (haddr : addr < 2 ^ 32) :
    walk (Function.update mem (slotAddr
      (entryTable (mem (slotAddr pd (pdIndex virt)))) (ptIndex virt)) entry)
      pd addr =
    if pageFloor addr = pageFloor virt then
      if IsPresent entry then some (mem (slotAddr pd (pdIndex virt)), entry)
      else none
    else walk mem pd addr := by
  have hpde := hdir.slot_update ⟨_, pdIndex_lt hvirt, hpresent, rfl⟩
    (pdIndex_lt haddr) (ptIndex_lt virt) entry
  by_cases hpage : pageFloor addr = pageFloor virt
  · obtain ⟨hpd, hpt⟩ := pageFloor_eq_iff.mp hpage
    rw [if_pos hpage]
    unfold walk
    dsimp only
    rw [hpde, hpd, hpt, if_pos hpresent, Function.update_self]
  · rw [if_neg hpage]
    apply walk_congr hpde
    intro hother
    apply Function.update_of_ne
    intro heq
    obtain ⟨htable, hpt⟩ := (slotAddr_inj (entryTable_isFrame _)
      (entryTable_isFrame _) (ptIndex_lt addr) (ptIndex_lt virt)).mp heq
    exact hpage (pageFloor_eq_iff.mpr ⟨hdir.inj _ (pdIndex_lt haddr) _
      (pdIndex_lt hvirt) hother hpresent htable, hpt⟩)

/-- A frame that the directory does not use. -/
structure Unused (mem : PhysMem) (pd table : Nat) : Prop where
  frame : IsFrame table
  notDir : table ≠ pd
  notTable : ¬ IsTable mem pd table

/-- What is written into such a frame is not seen by the walk. -/
theorem Unused.walk_fillSlots {table : Nat} (hunused : Unused mem pd table)
    (hdir : IsFrame pd) {entry : Nat → BitVec 32} {n : Nat} (hn : n ≤ 1024)
    (hvirt : virt < 2 ^ 32) :
    walk (fillSlots mem table entry n) pd virt = walk mem pd virt := by
  apply walk_congr
  · exact fillSlots_other hunused.frame hdir hunused.notDir.symm hn
      (pdIndex_lt hvirt)
  · intro hpresent
    apply fillSlots_other hunused.frame (entryTable_isFrame _) _ hn
      (ptIndex_lt virt)
    intro heq
    exact hunused.notTable ⟨_, pdIndex_lt hvirt, hpresent, heq⟩

/-- The slots after `table` was cleared and slot `idx` of `dir` written. -/
theorem update_clearTable_slot {dir table frame idx i : Nat}
    (hdir : IsFrame dir) (htable : IsFrame table) (hframe : IsFrame frame)
    (hidx : idx < 1024) (hi : i < 1024) (entry : BitVec 32) :
    Function.update (clearTable mem table) (slotAddr dir idx) entry
      (slotAddr frame i) =
    if frame = dir ∧ i = idx then entry
    else if frame = table then 0#32 else mem (slotAddr frame i) := by
  by_cases hslot : frame = dir ∧ i = idx
  · rw [if_pos hslot, hslot.1, hslot.2, Function.update_self]
  · rw [if_neg hslot, Function.update_of_ne, clearTable_eq]
    · by_cases heq : frame = table
      · rw [if_pos heq, heq, fillSlots_slot hi]
      · rw [if_neg heq, fillSlots_other htable hframe heq (Nat.le_refl _) hi]
    · intro heq
      exact hslot ((slotAddr_inj hframe hdir hi hidx).mp heq)

/-- The directory after an unused frame became the table of slot `idx`. -/
theorem Unused.slot_newTable {table idx i : Nat} (hunused : Unused mem pd table)
    (hdir : IsFrame pd) (hidx : idx < 1024) (hi : i < 1024)
    (entry : BitVec 32) :
    Function.update (clearTable mem table) (slotAddr pd idx) entry
      (slotAddr pd i) = if i = idx then entry else mem (slotAddr pd i) := by
  rw [update_clearTable_slot hdir hunused.frame hdir hidx hi,
    if_neg hunused.notDir.symm]
  simp only [true_and]

theorem Unused.isTable_newTable {table idx : Nat}
    (hunused : Unused mem pd table) (hdir : IsFrame pd) (hidx : idx < 1024)
    (habsent : ¬ IsPresent (mem (slotAddr pd idx))) {entry : BitVec 32}
    (hpresent : IsPresent entry) (htable : entryTable entry = table)
    {frame : Nat} :
    IsTable (Function.update (clearTable mem table) (slotAddr pd idx) entry)
      pd frame ↔ IsTable mem pd frame ∨ table = frame := by
  constructor
  · rintro ⟨i, hi, hslot, heq⟩
    rw [hunused.slot_newTable hdir hidx hi] at hslot heq
    by_cases hi' : i = idx
    · rw [if_pos hi', htable] at heq
      exact .inr heq
    · rw [if_neg hi'] at hslot heq
      exact .inl ⟨i, hi, hslot, heq⟩
  · rintro (⟨i, hi, hslot, heq⟩ | rfl)
    · have hi' : i ≠ idx := fun h => habsent (h ▸ hslot)
      refine ⟨i, hi, ?_⟩
      rw [hunused.slot_newTable hdir hidx hi, if_neg hi']
      exact ⟨hslot, heq⟩
    · refine ⟨idx, hidx, ?_⟩
      rw [Function.update_self]
      exact ⟨hpresent, htable⟩

/-- The empty table that serves a part of the address space for the first
time maps nothing. -/
theorem Unused.walk_newTable {table idx : Nat} (hunused : Unused mem pd table)
    (hdir : Directory mem pd) (hidx : idx < 1024)
    (habsent : ¬ IsPresent (mem (slotAddr pd idx))) {entry : BitVec 32}
    (htable : entryTable entry = table) (hvirt : virt < 2 ^ 32) :
    walk (Function.update (clearTable mem table) (slotAddr pd idx) entry)
      pd virt = walk mem pd virt := by
  have hslot := fun {frame i : Nat} (hframe : IsFrame frame) (hi : i < 1024) =>
    @update_clearTable_slot mem _ _ _ _ _ hdir.frame hunused.frame hframe hidx hi
      entry
  by_cases heq : pdIndex virt = idx
  · have hnone : walk mem pd virt = none := by
      unfold walk
      dsimp only
      rw [heq, if_neg habsent]
    have hpte := hslot hunused.frame (ptIndex_lt virt)
    rw [if_neg (fun h => hunused.notDir h.1), if_pos rfl] at hpte
    rw [hnone]
    unfold walk
    dsimp only
    rw [heq, Function.update_self, htable, hpte, if_neg not_isPresent_zero]
    exact ite_self none
  · apply walk_congr
    · rw [hslot hdir.frame (pdIndex_lt hvirt), if_neg (fun h => heq h.2),
        if_neg hunused.notDir.symm]
    · intro hpresent
      rw [hslot (entryTable_isFrame _) (ptIndex_lt virt), if_neg, if_neg]
      · intro h
        exact hunused.notTable ⟨_, pdIndex_lt hvirt, hpresent, h⟩
      · rintro ⟨h, -⟩
        exact hdir.apart ⟨_, pdIndex_lt hvirt, hpresent, h⟩

end Walks

end Orion
