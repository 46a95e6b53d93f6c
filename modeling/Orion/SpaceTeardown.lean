/-
Tearing an address space down.  A directory is created, tables and pages are
added to it, and it is destroyed again: each table and each page is given back
once, but the frame of the directory is not given back at all.
-/
import Orion.MemorySystem
import Orion.VmmPageMap

namespace Orion

open MachineInt ByteMem

/-- What is added to an address space: a table in a slot of the directory, or a
page in a slot of one of its tables. -/
inductive SpaceAddition where
  | table (i : Nat) (flags : BitVec 32)
  | page (i j : Nat) (flags : BitVec 32)

/-- Install a new frame in an empty slot outside the kernel's; `none` when there
is no frame or no such slot. -/
def addToSpace (pd : Nat) (paging : Paging) : SpaceAddition → Option Paging
  | .table i flags =>
      if 1 ≤ i ∧ i < 1024 ∧ flags.toNat < 4096 ∧
          ¬ IsPresent (paging.mem (slotAddr pd i)) then
        let (frame, pmm) := pmmAllocFrame paging.pmm
        if frame = 0 then none
        else some { paging with
          pmm := pmm
          mem := Function.update (clearTable paging.mem frame) (slotAddr pd i)
            (pageEntry frame flags) }
      else none
  | .page i j flags =>
      let pde := paging.mem (slotAddr pd i)
      if 1 ≤ i ∧ i < 1024 ∧ j < 1024 ∧ flags.toNat < 4096 ∧ IsPresent pde ∧
          ¬ IsPresent (paging.mem (slotAddr (entryTable pde) j)) then
        let (frame, pmm) := pmmAllocFrame paging.pmm
        if frame = 0 then none
        else some { paging with
          pmm := pmm
          mem := Function.update paging.mem (slotAddr (entryTable pde) j)
            (pageEntry frame flags) }
      else none

/-- The entry, if it is present. -/
def presentEntry (entry : BitVec 32) : List (BitVec 32) :=
  if IsPresent entry then [entry] else []

/-- The present entries of a table. -/
def tableEntries (mem : PhysMem) (table : Nat) : List (BitVec 32) :=
  (List.range 1024).flatMap fun j => presentEntry (mem (slotAddr table j))

/-- The present entries behind a slot of the directory, and the slot itself. -/
def slotEntries (mem : PhysMem) (pde : BitVec 32) : List (BitVec 32) :=
  if IsPresent pde then tableEntries mem (entryTable pde) ++ [pde] else []

/-- The entries of an address space outside the kernel's slot, in the order in
which their frames are given back. -/
def spaceEntries (mem : PhysMem) (pd : Nat) : List (BitVec 32) :=
  (List.range' 1 1023).flatMap fun i => slotEntries mem (mem (slotAddr pd i))

/-- The frame an entry names. -/
def entryFrame (entry : BitVec 32) : Nat := addrToFrame (entryTable entry)

/-- Give back the frame of an entry. -/
def freeEntry (pmm : Pmm) (entry : BitVec 32) : Pmm :=
  pmmFreeFrame pmm (UInt32.ofBitVec (entry &&& vmmAddrMask))

section Destroy

theorem foldl_tableEntries (mem : PhysMem) (table : Nat) (pmm : Pmm) :
    (tableEntries mem table).foldl freeEntry pmm =
      (List.range 1024).foldl (fun pmm j =>
        let pte := mem (slotAddr table j)
        if pte &&& vmmPresent = 0 then pmm
        else pmmFreeFrame pmm (UInt32.ofBitVec (pte &&& vmmAddrMask))) pmm := by
  rw [tableEntries, List.foldl_flatMap]
  apply List.foldl_ext
  intro pmm j _
  dsimp only
  by_cases hpresent : IsPresent (mem (slotAddr table j))
  · rw [presentEntry, if_pos hpresent, if_neg hpresent]
    rfl
  · rw [presentEntry, if_neg hpresent, if_pos (not_not.mp hpresent)]
    rfl

/-- Destroying an address space gives back the frames of its entries. -/
theorem vmmDestroyAddressSpace_eq_foldl {paging : Paging} {pd : Nat}
    (hzero : pd ≠ 0) (hkernel : pd ≠ paging.kernelPdPhys) :
    vmmDestroyAddressSpace paging pd = { paging with
      pmm := (spaceEntries paging.mem pd).foldl freeEntry paging.pmm } := by
  have hloop : ∀ (slots : List Nat) (pmm : Pmm),
      slots.foldl (fun paging i =>
        let pde := paging.mem (slotAddr pd i)
        if pde &&& vmmPresent = 0 then paging else freeTable paging pde)
        { paging with pmm := pmm } =
      { paging with
        pmm := List.foldl freeEntry pmm (slots.flatMap fun i =>
          slotEntries paging.mem (paging.mem (slotAddr pd i))) } := by
    intro slots
    induction slots with
    | nil => exact fun _ => rfl
    | cons i slots ih =>
        intro pmm
        rw [List.foldl_cons, List.flatMap_cons, List.foldl_append]
        dsimp only
        by_cases hpresent : IsPresent (paging.mem (slotAddr pd i))
        · rw [if_neg hpresent, slotEntries, if_pos hpresent, List.foldl_append,
            foldl_tableEntries]
          exact ih _
        · rw [if_pos (not_not.mp hpresent), slotEntries, if_neg hpresent]
          exact ih pmm
  rw [vmmDestroyAddressSpace, if_neg (by simp [hzero, hkernel])]
  exact hloop _ paging.pmm

theorem bitmapTest_freeEntry (pmm : Pmm) {entry : BitVec 32} {frame : Nat}
    (hframe : entryFrame entry ≠ 0) :
    bitmapTest (freeEntry pmm entry) frame = true ↔
      bitmapTest pmm frame = true ∧ frame ≠ entryFrame entry := by
  by_cases heq : frame = entryFrame entry
  · have hclear : bitmapTest (freeEntry pmm entry) (entryFrame entry) = false :=
      bitmapTest_pmmFreeFrame_self hframe
    simp [heq, hclear]
  · have hsame : bitmapTest (freeEntry pmm entry) frame = bitmapTest pmm frame :=
      bitmapTest_pmmFreeFrame heq
    simp [heq, hsame]

/-- Giving back a list of entries clears exactly their frames. -/
theorem bitmapTest_foldl_freeEntry (pmm : Pmm) {entries : List (BitVec 32)}
    {frame : Nat} (hframes : ∀ entry ∈ entries, entryFrame entry ≠ 0) :
    bitmapTest (entries.foldl freeEntry pmm) frame = true ↔
      bitmapTest pmm frame = true ∧ frame ∉ entries.map entryFrame := by
  induction entries generalizing pmm with
  | nil => simp
  | cons entry entries ih =>
      obtain ⟨hentry, hframes⟩ := List.forall_mem_cons.mp hframes
      rw [List.foldl_cons, ih _ hframes, bitmapTest_freeEntry _ hentry,
        List.map_cons, List.mem_cons, not_or, and_assoc]

end Destroy

/-- One list in a `flatMap` has grown by one element. -/
theorem flatMap_perm_cons {α β : Type} {l : List α} (hnodup : l.Nodup) {a : α}
    (ha : a ∈ l) {f g : α → List β} {x : β}
    (hother : ∀ k ∈ l, k ≠ a → g k = f k) (hhere : (g a).Perm (x :: f a)) :
    (l.flatMap g).Perm (x :: l.flatMap f) := by
  induction l with
  | nil => cases ha
  | cons k l ih =>
      obtain ⟨hk, hnodup⟩ := List.nodup_cons.mp hnodup
      rw [List.flatMap_cons, List.flatMap_cons]
      by_cases heq : k = a
      · subst heq
        have hrest : l.flatMap g = l.flatMap f := by
          apply List.flatMap_congr
          intro i hi
          exact hother i (List.mem_cons_of_mem k hi) fun h => hk (h ▸ hi)
        rw [hrest]
        exact hhere.append_right _
      · have hmem : a ∈ l := (List.mem_cons.mp ha).resolve_left (Ne.symm heq)
        have hrest := ih hnodup hmem fun i hi =>
          hother i (List.mem_cons_of_mem k hi)
        rw [hother k List.mem_cons_self heq]
        exact (hrest.append_left _).trans List.perm_middle

section Entries

variable {mem mem' : PhysMem} {pd table i j : Nat} {entry : BitVec 32}

theorem tableEntries_congr
    (hslots : ∀ j < 1024, mem' (slotAddr table j) = mem (slotAddr table j)) :
    tableEntries mem' table = tableEntries mem table := by
  apply List.flatMap_congr
  intro j hj
  rw [hslots j (List.mem_range.mp hj)]

theorem tableEntries_clear
    (hslots : ∀ j < 1024, mem (slotAddr table j) = 0#32) :
    tableEntries mem table = [] := by
  rw [tableEntries, List.flatMap_eq_nil_iff]
  intro j hj
  rw [hslots j (List.mem_range.mp hj)]
  exact if_neg not_isPresent_zero

/-- An entry in an empty slot of a table. -/
theorem tableEntries_update (htable : IsFrame table) (hj : j < 1024)
    (habsent : ¬ IsPresent (mem (slotAddr table j))) (hpresent : IsPresent entry) :
    (tableEntries (Function.update mem (slotAddr table j) entry) table).Perm
      (entry :: tableEntries mem table) := by
  apply flatMap_perm_cons List.nodup_range (List.mem_range.mpr hj)
  · intro k hk hne
    rw [Function.update_of_ne]
    intro heq
    exact hne ((slotAddr_inj htable htable (List.mem_range.mp hk) hj).mp heq).2
  · rw [Function.update_self, presentEntry, if_pos hpresent, presentEntry,
      if_neg habsent]

theorem slotEntries_congr
    (hslots : IsPresent entry → ∀ j < 1024,
      mem' (slotAddr (entryTable entry) j) = mem (slotAddr (entryTable entry) j)) :
    slotEntries mem' entry = slotEntries mem entry := by
  by_cases hpresent : IsPresent entry
  · rw [slotEntries, slotEntries, if_pos hpresent, if_pos hpresent,
      tableEntries_congr (hslots hpresent)]
  · rw [slotEntries, slotEntries, if_neg hpresent, if_neg hpresent]

theorem mem_userSlots : i ∈ List.range' 1 1023 ↔ 1 ≤ i ∧ i < 1024 := by
  rw [List.mem_range'_1]

/-- A table in an empty slot of the directory. -/
theorem spaceEntries_newTable (hdir : Directory mem pd)
    (hunused : Unused mem pd table) (hlow : 1 ≤ i) (hi : i < 1024)
    (habsent : ¬ IsPresent (mem (slotAddr pd i))) (hpresent : IsPresent entry)
    (htable : entryTable entry = table) :
    (spaceEntries (Function.update (clearTable mem table) (slotAddr pd i) entry)
      pd).Perm (entry :: spaceEntries mem pd) := by
  have hslot : ∀ k < 1024, _ := fun k hk =>
    hunused.slot_newTable hdir.frame hi hk entry
  have hother : ∀ frame, IsFrame frame → frame ≠ pd → ∀ j < 1024,
      Function.update (clearTable mem table) (slotAddr pd i) entry
        (slotAddr frame j) =
      if frame = table then 0#32 else mem (slotAddr frame j) := by
    intro frame hframe hne j hj
    rw [update_clearTable_slot hdir.frame hunused.frame hframe hi hj,
      if_neg fun h => hne h.1]
  generalize Function.update (clearTable mem table) (slotAddr pd i) entry = mem'
    at hslot hother ⊢
  apply flatMap_perm_cons List.nodup_range' (mem_userSlots.mpr ⟨hlow, hi⟩)
  · intro k hk hne
    obtain ⟨-, hk⟩ := mem_userSlots.mp hk
    rw [hslot k hk, if_neg hne]
    apply slotEntries_congr
    intro hpresent' j hj
    have histable : IsTable mem pd (entryTable (mem (slotAddr pd k))) :=
      ⟨k, hk, hpresent', rfl⟩
    have hpd : entryTable (mem (slotAddr pd k)) ≠ pd := by
      intro heq
      rw [heq] at histable
      exact hdir.apart histable
    have hnew : entryTable (mem (slotAddr pd k)) ≠ table := by
      intro heq
      rw [heq] at histable
      exact hunused.notTable histable
    rw [hother _ histable.isFrame hpd j hj, if_neg hnew]
  · rw [hslot i hi, if_pos rfl, slotEntries, if_pos hpresent, slotEntries,
      if_neg habsent, htable, tableEntries_clear]
    · exact List.Perm.refl _
    · intro j hj
      rw [hother table hunused.frame hunused.notDir j hj, if_pos rfl]

/-- A page in an empty slot of a table. -/
theorem spaceEntries_newPage (hdir : Directory mem pd) (hlow : 1 ≤ i)
    (hi : i < 1024) (hj : j < 1024) (htable : IsPresent (mem (slotAddr pd i)))
    (habsent : ¬ IsPresent
      (mem (slotAddr (entryTable (mem (slotAddr pd i))) j)))
    (hpresent : IsPresent entry) :
    (spaceEntries (Function.update mem
      (slotAddr (entryTable (mem (slotAddr pd i))) j) entry) pd).Perm
        (entry :: spaceEntries mem pd) := by
  have histable : IsTable mem pd (entryTable (mem (slotAddr pd i))) :=
    ⟨i, hi, htable, rfl⟩
  have hslot : ∀ k < 1024, _ := fun k hk =>
    hdir.slot_update histable hk hj entry
  apply flatMap_perm_cons List.nodup_range' (mem_userSlots.mpr ⟨hlow, hi⟩)
  · intro k hk hne
    obtain ⟨-, hk⟩ := mem_userSlots.mp hk
    rw [hslot k hk]
    apply slotEntries_congr
    intro hpresent' j' hj'
    apply update_table_of_ne histable.isFrame (entryTable_isFrame _) _ hj' hj
    exact fun h => hne (hdir.inj k hk i hi hpresent' htable h)
  · rw [hslot i hi, slotEntries, if_pos htable, slotEntries, if_pos htable,
      ← List.cons_append]
    exact (tableEntries_update histable.isFrame hj habsent hpresent).append_right
      _

end Entries

theorem pmmAllocFrame_bits {pmm pmm' : Pmm} (hpos : 1 ≤ pmm.allocSearch)
    (hle : pmm.allocSearch ≤ pmmMaxFrames) {frame : Nat}
    (halloc : pmmAllocFrame pmm = (frame, pmm')) (hne : frame ≠ 0) (other : Nat) :
    bitmapTest pmm' other = true ↔
      other = addrToFrame frame ∨ bitmapTest pmm other = true := by
  rcases pmmAllocFrame_inversion hpos hle with hnone | ⟨found, -, -, -, hsome⟩
  · exact absurd (Prod.mk.inj (halloc.symm.trans hnone)).1 hne
  · obtain ⟨rfl, rfl⟩ := Prod.mk.inj (halloc.symm.trans hsome)
    rw [addrToFrame_mul, bitmapTest_pmmTakeFrame, Bool.or_eq_true,
      decide_eq_true_eq]

/-- The frames an address space names outside the kernel's slot. -/
def spaceFrames (mem : PhysMem) (pd : Nat) : List Nat :=
  (spaceEntries mem pd).map entryFrame

/-- An address space under construction: the frames marked since `before` are
those of the directory and of its entries, each of them once. -/
structure SpaceInv (before : Pmm) (pd : Nat) (paging : Paging) : Prop where
  tables : PagingInv paging.pmm paging.mem pd []
  bits : ∀ frame, bitmapTest paging.pmm frame = true ↔
    bitmapTest before frame = true ∨ frame = addrToFrame pd ∨
      frame ∈ spaceFrames paging.mem pd
  nodup : (spaceFrames paging.mem pd).Nodup
  fresh : ∀ frame ∈ spaceFrames paging.mem pd, frame ≠ 0 ∧
    frame ≠ addrToFrame pd ∧ bitmapTest before frame = false

section Build

variable {before : Pmm} {pd : Nat} {paging next : Paging}

/-- A frame is taken and named by a new entry. -/
theorem SpaceInv.add (hinv : SpaceInv before pd paging) {frame : Nat}
    {pmm : Pmm} (halloc : pmmAllocFrame paging.pmm = (frame, pmm))
    (hne : frame ≠ 0) {mem : PhysMem} {entry : BitVec 32}
    (hentry : entryTable entry = frame) (htables : PagingInv pmm mem pd [])
    (hperm : (spaceEntries mem pd).Perm (entry :: spaceEntries paging.mem pd)) :
    SpaceInv before pd { paging with pmm := pmm, mem := mem } := by
  have hframes : (spaceFrames mem pd).Perm
      (addrToFrame frame :: spaceFrames paging.mem pd) := by
    have hmap := hperm.map entryFrame
    rwa [List.map_cons, entryFrame, hentry] at hmap
  have hallocates := pmmAllocFrame_allocates hinv.tables.searchPos
    hinv.tables.searchLe halloc
  obtain ⟨haligned, hclear, -⟩ := hallocates.takes hne
  -- a clear frame was not marked before, nor since
  have hfree := (hinv.bits (addrToFrame frame)).not.mp (by simp [hclear])
  rw [not_or, not_or, Bool.not_eq_true] at hfree
  obtain ⟨hbefore, hpd, hnew⟩ := hfree
  have hzero : addrToFrame frame ≠ 0 := by
    have hmod := haligned.1
    simp only [addrToFrame, pageSize] at hmod ⊢
    omega
  refine ⟨htables, ?_, hframes.nodup_iff.mpr (List.nodup_cons.mpr
    ⟨hnew, hinv.nodup⟩), ?_⟩
  · intro other
    dsimp only
    rw [pmmAllocFrame_bits hinv.tables.searchPos hinv.tables.searchLe halloc hne,
      hinv.bits, hframes.mem_iff, List.mem_cons]
    tauto
  · intro other hother
    rcases List.mem_cons.mp (hframes.mem_iff.mp hother) with rfl | hold
    · exact ⟨hzero, hpd, hbefore⟩
    · exact hinv.fresh other hold

theorem SpaceInv.step (hinv : SpaceInv before pd paging)
    {addition : SpaceAddition}
    (hstep : addToSpace pd paging addition = some next) :
    SpaceInv before pd next := by
  have hdir := hinv.tables.directory
  cases addition with
  | table i flags =>
      simp only [addToSpace] at hstep
      split_ifs at hstep with hslot hne
      obtain ⟨hlow, hi, hflags, habsent⟩ := hslot
      obtain rfl := Option.some.inj hstep
      rcases halloc : pmmAllocFrame paging.pmm with ⟨frame, pmm⟩
      rw [halloc] at hne
      dsimp only at hne ⊢
      obtain ⟨htables, hfresh⟩ := hinv.tables.alloc halloc
      have hunused := (hfresh hne).unused
      have hentry := entryTable_pageEntry hunused.frame
        (and_vmmAddrMask_of_lt hflags)
      have hpresent := isPresent_pageEntry frame flags
      exact hinv.add halloc hne hentry
        (htables.newTable (hfresh hne) hi hentry habsent hpresent)
        (spaceEntries_newTable hdir hunused hlow hi habsent hpresent hentry)
  | page i j flags =>
      simp only [addToSpace] at hstep
      split_ifs at hstep with hslot hne
      obtain ⟨hlow, hi, hj, hflags, htable, habsent⟩ := hslot
      obtain rfl := Option.some.inj hstep
      rcases halloc : pmmAllocFrame paging.pmm with ⟨frame, pmm⟩
      rw [halloc] at hne
      dsimp only at hne ⊢
      obtain ⟨htables, hfresh⟩ := hinv.tables.alloc halloc
      have hentry := entryTable_pageEntry (hfresh hne).aligned
        (and_vmmAddrMask_of_lt hflags)
      exact hinv.add halloc hne hentry
        (htables.writeEntry ⟨i, hi, htable, rfl⟩ hj _)
        (spaceEntries_newPage hdir hlow hi hj htable habsent
          (isPresent_pageEntry frame flags))

/-- A directory just created has the kernel's table and no other. -/
theorem PagingInv.ofSpace {pmm : Pmm} {mem : PhysMem} {kernelPd : Nat}
    (hinv : PagingInv pmm mem kernelPd [pd]) : PagingInv pmm mem pd [] := by
  have hmem : pd ∈ [pd] := List.mem_singleton_self pd
  have hcopied := hinv.copied pd hmem
  have hzero : ∀ i < 1024, IsPresent (mem (slotAddr pd i)) → i = 0 := by
    intro i hi hpresent
    by_contra hne
    rw [hinv.empty pd hmem i hi hne] at hpresent
    exact not_isPresent_zero hpresent
  have htable : ∀ frame, IsTable mem pd frame → IsTable mem kernelPd frame := by
    rintro frame ⟨i, hi, hpresent, heq⟩
    obtain rfl := hzero i hi hpresent
    rw [hcopied] at hpresent heq
    exact ⟨0, hi, hpresent, heq⟩
  have hunused := hinv.unused pd hmem
  refine ⟨hinv.searchPos, hinv.searchLe, ⟨hunused.frame, ?_, ?_⟩, ?_, ?_, by simp,
    by simp, by simp⟩
  · exact fun h => hunused.notTable (htable pd h)
  · intro i hi j hj hi' hj' _
    rw [hzero i hi hi', hzero j hj hj']
  · rw [hcopied]
    exact hinv.first
  · rintro frame (rfl | h | h)
    · exact hinv.used frame (.inr (.inr hmem))
    · exact hinv.used frame (.inr (.inl (htable frame h)))
    · contradiction

theorem vmmCreateAddressSpace_spaceInv {frames : List Nat}
    (hinv : FramesInv paging frames)
    (hcreate : vmmCreateAddressSpace paging = (pd, next)) (hne : pd ≠ 0) :
    SpaceInv paging.pmm pd next ∧ pd ≠ next.kernelPdPhys ∧
      bitmapTest paging.pmm (addrToFrame pd) = false := by
  obtain ⟨hkeeps, htables⟩ :=
    vmmCreateAddressSpace_spec hinv.tables hinv.master hcreate
  rw [if_neg hne] at htables
  rcases halloc : pmmAllocFrame paging.pmm with ⟨frame, pmm⟩
  obtain ⟨rfl, hpmm⟩ : frame = pd ∧ next.pmm = pmm := by
    simp only [vmmCreateAddressSpace, halloc] at hcreate
    split_ifs at hcreate with hzero
    · exact absurd (Prod.mk.inj hcreate).1.symm hne
    · obtain ⟨hframe, rfl⟩ := Prod.mk.inj hcreate
      exact ⟨hframe, rfl⟩
  have hbits := pmmAllocFrame_bits hinv.tables.searchPos hinv.tables.searchLe
    halloc hne
  have hallocates := pmmAllocFrame_allocates hinv.tables.searchPos
    hinv.tables.searchLe halloc
  have hnone : spaceFrames next.mem frame = [] := by
    rw [spaceFrames, List.map_eq_nil_iff, spaceEntries, List.flatMap_eq_nil_iff]
    intro i hi
    obtain ⟨hlow, hi⟩ := mem_userSlots.mp hi
    rw [htables.empty frame (List.mem_singleton_self frame) i hi (by omega)]
    exact if_neg not_isPresent_zero
  refine ⟨⟨htables.ofSpace, ?_, ?_, ?_⟩, ?_, (hallocates.takes hne).2.1⟩
  · intro other
    rw [hpmm, hbits, hnone]
    simp [or_comm]
  · rw [hnone]
    exact List.nodup_nil
  · simp [hnone]
  · rw [hkeeps.kernelPdPhys, hinv.master, ← hkeeps.pageDirectory]
    exact (htables.unused frame (List.mem_singleton_self frame)).notDir

/-- Whatever was added, destroying the address space gives back what its
entries name. -/
theorem SpaceInv.destroy (hinv : SpaceInv before pd paging) (hne : pd ≠ 0)
    (hkernel : pd ≠ paging.kernelPdPhys) (frame : Nat) :
    bitmapTest (vmmDestroyAddressSpace paging pd).pmm frame = true ↔
      bitmapTest before frame = true ∨ frame = addrToFrame pd := by
  have hframes : ∀ entry ∈ spaceEntries paging.mem pd, entryFrame entry ≠ 0 :=
    fun entry hentry => (hinv.fresh _ (List.mem_map_of_mem hentry)).1
  rw [vmmDestroyAddressSpace_eq_foldl hne hkernel]
  dsimp only
  rw [bitmapTest_foldl_freeEntry _ hframes, hinv.bits, ← spaceFrames]
  have hfresh := hinv.fresh frame
  constructor
  · rintro ⟨hbefore | hpd | hmem, hnot⟩
    · exact .inl hbefore
    · exact .inr hpd
    · exact absurd hmem hnot
  · rintro (hbefore | hpd)
    · refine ⟨.inl hbefore, fun hmem => ?_⟩
      rw [(hfresh hmem).2.2] at hbefore
      contradiction
    · exact ⟨.inr (.inl hpd), fun hmem => (hfresh hmem).2.1 hpd⟩

theorem addToSpace_kernelPdPhys {addition : SpaceAddition}
    (hstep : addToSpace pd paging addition = some next) :
    next.kernelPdPhys = paging.kernelPdPhys := by
  cases addition with
  | table i flags =>
      simp only [addToSpace] at hstep
      split_ifs at hstep
      rw [← Option.some.inj hstep]
  | page i j flags =>
      simp only [addToSpace] at hstep
      split_ifs at hstep
      rw [← Option.some.inj hstep]

theorem SpaceInv.run (hinv : SpaceInv before pd paging)
    (hkernel : pd ≠ paging.kernelPdPhys) {additions : List SpaceAddition}
    (hrun : Machine.exec (addToSpace pd) paging additions = some next) :
    SpaceInv before pd next ∧ pd ≠ next.kernelPdPhys := by
  have hstep : ∀ paging addition next,
      (SpaceInv before pd paging ∧ pd ≠ paging.kernelPdPhys) →
        addToSpace pd paging addition = some next →
          SpaceInv before pd next ∧ pd ≠ next.kernelPdPhys := by
    rintro paging addition next ⟨hinv, hkernel⟩ hstep
    exact ⟨hinv.step hstep, addToSpace_kernelPdPhys hstep ▸ hkernel⟩
  exact Machine.exec_invariant hstep ⟨hinv, hkernel⟩ hrun

end Build

/-- The frames free before an address space was created are free again after
it was destroyed. -/
def ConservesFrames (before after : Pmm) : Prop :=
  ∀ frame, bitmapTest after frame = bitmapTest before frame

/-- In every state of the memory managers, whatever tables and pages are added
to a new directory: when it is destroyed, each of their frames is given back
once, but the frame of the directory, which was free, stays marked as used. -/
theorem memory_run_teardown_keeps_directory (mbi : MultibootInfo)
    (kernelPhysStart kernelPhysEnd : UInt32) (mem : PhysMem) (bytes : Mem)
    (start sys : MemorySystem) (calls : List MemoryCall)
    (hboot : MemorySystem.boot mbi kernelPhysStart kernelPhysEnd mem bytes =
      some start)
    (hrun : Machine.exec
      (Machine.guarded MemorySystem.fits MemorySystem.step) start calls =
        some sys)
    (pd : Nat) (created built : Paging)
    (hcreate : vmmCreateAddressSpace sys.paging = (pd, created)) (hne : pd ≠ 0)
    (additions : List SpaceAddition)
    (hbuild : Machine.exec (addToSpace pd) created additions = some built) :
    ¬ ConservesFrames sys.paging.pmm (vmmDestroyAddressSpace built pd).pmm ∧
      bitmapTest sys.paging.pmm (addrToFrame pd) = false ∧
      (∀ frame, bitmapTest (vmmDestroyAddressSpace built pd).pmm frame = true ↔
        bitmapTest sys.paging.pmm frame = true ∨ frame = addrToFrame pd) ∧
      (spaceFrames built.mem pd).Nodup ∧
      ∀ frame ∈ spaceFrames built.mem pd,
        bitmapTest sys.paging.pmm frame = false ∧
        bitmapTest built.pmm frame = true := by
  have hframes := (MemorySystem.run_inv hboot hrun).frames
  obtain ⟨hcreated, hkernel, hclear⟩ :=
    vmmCreateAddressSpace_spaceInv hframes hcreate hne
  obtain ⟨hbuilt, hkernel⟩ := hcreated.run hkernel hbuild
  have hdestroy := hbuilt.destroy hne hkernel
  refine ⟨fun hconserves => ?_, hclear, hdestroy, hbuilt.nodup, ?_⟩
  · have hused := (hdestroy (addrToFrame pd)).mpr (.inr rfl)
    rw [hconserves, hclear] at hused
    contradiction
  · exact fun frame hframe => ⟨(hbuilt.fresh frame hframe).2.2,
      (hbuilt.bits frame).mpr (.inr (.inr hframe))⟩

namespace SpaceTeardownWitness

/-- 144 KB of memory at 1 MB, with the kernel image in its first 32 KB. -/
def boot : Option MemorySystem :=
  MemorySystem.boot ⟨0x40, 0, [⟨0x100000, 0x24000, 1⟩]⟩ 0x100000 0x108000
    (fun _ => 0#32) fun _ => 0

/-- A table with a page in its last slot. -/
def additions : List SpaceAddition := [.table 1 6#32, .page 1 1023 6#32]

theorem additions_succeed :
    (boot.bind fun sys =>
      (Machine.exec (addToSpace (vmmCreateAddressSpace sys.paging).1)
        (vmmCreateAddressSpace sys.paging).2 additions).map fun _ =>
          (vmmCreateAddressSpace sys.paging).1) = some 0x11C000 := by
  decide +kernel

theorem additions_run :
    ∃ sys created built, boot = some sys ∧
      vmmCreateAddressSpace sys.paging = (0x11C000, created) ∧
      Machine.exec (addToSpace 0x11C000) created additions = some built := by
  obtain ⟨sys, hboot, hrest⟩ := Option.bind_eq_some_iff.mp additions_succeed
  obtain ⟨built, hbuild, hpd⟩ := Option.map_eq_some_iff.mp hrest
  rw [hpd] at hbuild
  exact ⟨sys, _, built, hboot, Prod.ext hpd rfl, hbuild⟩

/-- The frame of the directory was free and is not given back. -/
theorem directory_frame_lost :
    ∃ sys created built, boot = some sys ∧
      vmmCreateAddressSpace sys.paging = (0x11C000, created) ∧
      Machine.exec (addToSpace 0x11C000) created additions = some built ∧
      bitmapTest sys.paging.pmm 0x11C = false ∧
      bitmapTest (vmmDestroyAddressSpace built 0x11C000).pmm 0x11C = true := by
  obtain ⟨sys, created, built, hboot, hcreate, hbuild⟩ := additions_run
  obtain ⟨hcreated, hkernel, hclear⟩ := vmmCreateAddressSpace_spaceInv
    (MemorySystem.boot_inv hboot).frames hcreate (by decide)
  obtain ⟨hbuilt, hkernel⟩ := hcreated.run hkernel hbuild
  exact ⟨sys, created, built, hboot, hcreate, hbuild, hclear,
    (hbuilt.destroy (by decide) hkernel _).mpr (.inr rfl)⟩

theorem teardown_not_conserving :
    ∃ sys created built, boot = some sys ∧
      vmmCreateAddressSpace sys.paging = (0x11C000, created) ∧
      Machine.exec (addToSpace 0x11C000) created additions = some built ∧
      ¬ ConservesFrames sys.paging.pmm
        (vmmDestroyAddressSpace built 0x11C000).pmm := by
  obtain ⟨sys, created, built, hboot, hcreate, hbuild⟩ := additions_run
  exact ⟨sys, created, built, hboot, hcreate, hbuild,
    (memory_run_teardown_keeps_directory _ _ _ _ _ sys sys [] hboot rfl
      0x11C000 created built hcreate (by decide) additions hbuild).1⟩

end SpaceTeardownWitness

end Orion
