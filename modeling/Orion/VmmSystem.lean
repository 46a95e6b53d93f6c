/-
The memory managers as one system after paging is on: heap growth, mappings
and address spaces share the frame allocator and physical memory.  Every frame
that holds a directory or a table is marked used and holds nothing else.
-/
import Orion.Kheap
import Orion.VmmTables

namespace Orion

open MachineInt

/-- `spaces` lists the directories that were created and not yet destroyed. -/
structure VmmSystem where
  paging : Paging
  heapVirtMapped : Nat
  spaces : List Nat

inductive VmmCall where
  | grow
  | mapPage (virt phys : UInt32) (flags : BitVec 32)
  | unmapPage (virt : UInt32)
  | getPhys (virt : UInt32)
  | isMapped (virt : UInt32)
  | createAddressSpace
  | destroyAddressSpace (pdPhys : Nat)
  deriving DecidableEq

/-- One round of the loop in `ensure_mapped`: back the next page of the heap,
unless the ceiling is reached or no frame is left. -/
def VmmSystem.grow (sys : VmmSystem) : Option VmmSystem :=
  if heapMax < u32 (sys.heapVirtMapped + pageSize) then some sys
  else
    let (phys, pmm) := pmmAllocFrame sys.paging.pmm
    let paging := { sys.paging with pmm := pmm }
    if phys = 0 then some { sys with paging := paging }
    else
      (vmmMapPage paging sys.heapVirtMapped phys vmmKernelRw).map
        fun paging => { sys with
          paging := paging
          heapVirtMapped := u32 (sys.heapVirtMapped + pageSize) }

/-- One call; `none` is a panic, or a directory that is not live. -/
def VmmSystem.step (sys : VmmSystem) : VmmCall → Option VmmSystem
  | .grow => sys.grow
  | .mapPage virt phys flags =>
      (vmmMapPage sys.paging virt.toNat phys.toNat flags).map
        fun paging => { sys with paging := paging }
  | .unmapPage virt =>
      some { sys with paging := vmmUnmapPage sys.paging virt.toNat }
  | .getPhys _ => some sys
  | .isMapped _ => some sys
  | .createAddressSpace =>
      let (pdPhys, paging) := vmmCreateAddressSpace sys.paging
      some { sys with
        paging := paging
        spaces := if pdPhys = 0 then sys.spaces else pdPhys :: sys.spaces }
  | .destroyAddressSpace pdPhys =>
      if pdPhys ∈ sys.spaces then
        some { sys with
          paging := vmmDestroyAddressSpace sys.paging pdPhys
          spaces := sys.spaces.erase pdPhys }
      else none

/-- The state in which `vmm_init` leaves the managers, before the heap has its
first page; `none` is the panic of `vmm_init`. -/
def VmmSystem.boot (mbi : MultibootInfo) (kernelPhysStart kernelPhysEnd : UInt32)
    (mem : PhysMem) : Option VmmSystem :=
  (vmmInit ⟨pmmInit Pmm.boot mbi kernelPhysStart kernelPhysEnd, mem, 0, 0⟩).map
    fun paging => ⟨paging, heapStart, []⟩

/-- The frame holds a directory or a table. -/
def Held (mem : PhysMem) (pd : Nat) (spaces : List Nat) (frame : Nat) : Prop :=
  frame = pd ∨ IsTable mem pd frame ∨ frame ∈ spaces

/-- The tables of a system whose live directories are `pd` and `spaces`. -/
structure PagingInv (pmm : Pmm) (mem : PhysMem) (pd : Nat)
    (spaces : List Nat) : Prop where
  searchPos : 1 ≤ pmm.allocSearch
  searchLe : pmm.allocSearch ≤ pmmMaxFrames
  directory : Directory mem pd
  first : IsPresent (mem (slotAddr pd 0))
  used : ∀ frame, Held mem pd spaces frame →
    bitmapTest pmm (addrToFrame frame) = true
  unused : ∀ space ∈ spaces, Unused mem pd space
  copied : ∀ space ∈ spaces, mem (slotAddr space 0) = mem (slotAddr pd 0)
  empty : ∀ space ∈ spaces, ∀ i < 1024, i ≠ 0 → mem (slotAddr space i) = 0#32

abbrev Paging.Inv (paging : Paging) (spaces : List Nat) : Prop :=
  PagingInv paging.pmm paging.mem paging.pageDirectory spaces

/-- A frame just allocated: used, and nothing lives in it. -/
structure Fresh (pmm : Pmm) (mem : PhysMem) (pd : Nat) (spaces : List Nat)
    (frame : Nat) : Prop where
  aligned : IsFrame frame
  notHeld : ¬ Held mem pd spaces frame
  used : bitmapTest pmm (addrToFrame frame) = true

section Effects

variable {pmm pmm' : Pmm} {mem mem' : PhysMem} {pd : Nat} {spaces : List Nat}

theorem Fresh.unused {frame : Nat} (hfresh : Fresh pmm mem pd spaces frame) :
    Unused mem pd frame :=
  ⟨hfresh.aligned, fun h => hfresh.notHeld (.inl h),
    fun h => hfresh.notHeld (.inr (.inl h))⟩

/-- An allocation marks one free frame, or nothing. -/
structure Allocates (pmm pmm' : Pmm) (frame : Nat) : Prop where
  searchPos : 1 ≤ pmm'.allocSearch
  searchLe : pmm'.allocSearch ≤ pmmMaxFrames
  keeps : ∀ other, bitmapTest pmm other = true → bitmapTest pmm' other = true
  takes : frame ≠ 0 → IsFrame frame ∧
    bitmapTest pmm (addrToFrame frame) = false ∧
    bitmapTest pmm' (addrToFrame frame) = true

theorem pmmAllocFrame_allocates (hpos : 1 ≤ pmm.allocSearch)
    (hle : pmm.allocSearch ≤ pmmMaxFrames) {frame : Nat}
    (halloc : pmmAllocFrame pmm = (frame, pmm')) : Allocates pmm pmm' frame := by
  rcases pmmAllocFrame_inversion hpos hle with
    hnone | ⟨found, _, hlt, hclear, hsome⟩
  · obtain ⟨rfl, rfl⟩ := Prod.mk.inj (halloc.symm.trans hnone)
    exact ⟨hpos, hle, fun _ h => h, fun h => absurd rfl h⟩
  · obtain ⟨rfl, rfl⟩ := Prod.mk.inj (halloc.symm.trans hsome)
    obtain ⟨hsearch, hsearch'⟩ := pmmTakeFrame_search pmm found
    refine ⟨hsearch, hsearch'.le, fun other hother => ?_, fun _ => ⟨?_, ?_, ?_⟩⟩
    · rw [bitmapTest_pmmTakeFrame, hother, Bool.or_true]
    · simp only [IsFrame, pmmMaxFrames, pageSize] at hlt ⊢
      omega
    · rw [addrToFrame_mul]
      exact hclear
    · rw [addrToFrame_mul, bitmapTest_pmmTakeFrame, decide_eq_true rfl,
        Bool.true_or]

/-- Allocation hands out a frame in which nothing lives. -/
theorem PagingInv.alloc (hinv : PagingInv pmm mem pd spaces) {frame : Nat}
    (halloc : pmmAllocFrame pmm = (frame, pmm')) :
    PagingInv pmm' mem pd spaces ∧
      (frame ≠ 0 → Fresh pmm' mem pd spaces frame) := by
  obtain ⟨hpos, hle, hkeeps, htakes⟩ :=
    pmmAllocFrame_allocates hinv.searchPos hinv.searchLe halloc
  refine ⟨⟨hpos, hle, hinv.directory, hinv.first,
    fun frame hheld => hkeeps _ (hinv.used frame hheld), hinv.unused,
    hinv.copied, hinv.empty⟩, fun hne => ?_⟩
  obtain ⟨haligned, hclear, hused⟩ := htakes hne
  refine ⟨haligned, fun hheld => ?_, hused⟩
  rw [hinv.used frame hheld] at hclear
  contradiction

/-- The invariant reads the directories only. -/
theorem PagingInv.of_slots (hinv : PagingInv pmm mem pd spaces)
    (hdir : ∀ i < 1024, mem' (slotAddr pd i) = mem (slotAddr pd i))
    (hspaces : ∀ space ∈ spaces, ∀ i < 1024,
      mem' (slotAddr space i) = mem (slotAddr space i)) :
    PagingInv pmm mem' pd spaces := by
  refine ⟨hinv.searchPos, hinv.searchLe, hinv.directory.congr hdir, ?_, ?_,
    ?_, ?_, ?_⟩
  · rw [hdir 0 (by decide)]
    exact hinv.first
  · intro frame hheld
    exact hinv.used frame
      (hheld.imp_right fun h => h.imp_left (isTable_congr hdir).mp)
  · intro space hspace
    obtain ⟨haligned, hne, htable⟩ := hinv.unused space hspace
    exact ⟨haligned, hne, fun h => htable ((isTable_congr hdir).mp h)⟩
  · intro space hspace
    rw [hdir 0 (by decide), hspaces space hspace 0 (by decide)]
    exact hinv.copied space hspace
  · intro space hspace i hi hne
    rw [hspaces space hspace i hi]
    exact hinv.empty space hspace i hi hne

/-- Writing an entry of a table leaves the directories alone. -/
theorem PagingInv.writeEntry (hinv : PagingInv pmm mem pd spaces)
    {table i : Nat} (htable : IsTable mem pd table) (hi : i < 1024)
    (entry : BitVec 32) :
    PagingInv pmm (Function.update mem (slotAddr table i) entry) pd spaces := by
  apply hinv.of_slots
  · intro j hj
    exact hinv.directory.slot_update htable hj hi entry
  · intro space hspace j hj
    have hunused := hinv.unused space hspace
    apply update_table_of_ne htable.isFrame hunused.frame _ hj hi
    rintro rfl
    exact hunused.notTable htable

/-- A fresh frame becomes the table of a slot that had none. -/
theorem PagingInv.newTable (hinv : PagingInv pmm mem pd spaces)
    {table idx : Nat} (hfresh : Fresh pmm mem pd spaces table)
    (hidx : idx < 1024) {entry : BitVec 32} (hentry : entryTable entry = table)
    (habsent : ¬ IsPresent (mem (slotAddr pd idx)))
    (hpresent : IsPresent entry) :
    PagingInv pmm (Function.update (clearTable mem table) (slotAddr pd idx)
      entry) pd spaces := by
  have hunused := hfresh.unused
  have hdir := fun i (hi : i < 1024) =>
    hunused.slot_newTable hinv.directory.frame hidx hi entry
  have hspaces : ∀ space ∈ spaces, ∀ i < 1024,
      Function.update (clearTable mem table) (slotAddr pd idx) entry
        (slotAddr space i) = mem (slotAddr space i) := by
    intro space hspace i hi
    rw [update_clearTable_slot hinv.directory.frame hfresh.aligned
      (hinv.unused space hspace).frame hidx hi,
      if_neg (fun h => (hinv.unused space hspace).notDir h.1), if_neg]
    rintro rfl
    exact hfresh.notHeld (.inr (.inr hspace))
  have hfirst : idx ≠ 0 := fun h => habsent (h ▸ hinv.first)
  have htables := fun frame => (@Unused.isTable_newTable _ _ _ _ hunused
    hinv.directory.frame hidx habsent _ hpresent hentry frame).mp
  generalize Function.update (clearTable mem table) (slotAddr pd idx) entry =
    mem' at hdir hspaces htables ⊢
  refine ⟨hinv.searchPos, hinv.searchLe, ⟨hinv.directory.frame, ?_, ?_⟩, ?_, ?_,
    ?_, ?_, ?_⟩
  · intro h
    rcases htables _ h with h | heq
    · exact hinv.directory.apart h
    · exact hunused.notDir heq
  · intro i hi j hj
    rw [hdir i hi, hdir j hj]
    by_cases hslot : i = idx <;> by_cases hslot' : j = idx
    · exact fun _ _ _ => hslot.trans hslot'.symm
    · rw [if_pos hslot, if_neg hslot', hentry]
      exact fun _ h heq => absurd ⟨j, hj, h, heq.symm⟩ hunused.notTable
    · rw [if_neg hslot, if_pos hslot', hentry]
      exact fun h _ heq => absurd ⟨i, hi, h, heq⟩ hunused.notTable
    · rw [if_neg hslot, if_neg hslot']
      exact hinv.directory.inj i hi j hj
  · rw [hdir 0 (by decide), if_neg hfirst.symm]
    exact hinv.first
  · rintro frame (heq | htable | hspace)
    · exact hinv.used frame (.inl heq)
    · rcases htables frame htable with h | rfl
      · exact hinv.used frame (.inr (.inl h))
      · exact hfresh.used
    · exact hinv.used frame (.inr (.inr hspace))
  · intro space hspace
    obtain ⟨haligned, hne, htable⟩ := hinv.unused space hspace
    refine ⟨haligned, hne, fun h => ?_⟩
    rcases htables space h with h | rfl
    · exact htable h
    · exact hfresh.notHeld (.inr (.inr hspace))
  · intro space hspace
    rw [hdir 0 (by decide), if_neg hfirst.symm, hspaces space hspace 0 (by decide)]
    exact hinv.copied space hspace
  · intro space hspace i hi hne
    rw [hspaces space hspace i hi]
    exact hinv.empty space hspace i hi hne

/-- The slots after a fresh frame became a directory. -/
theorem Fresh.newSpace_slot {space : Nat}
    (hfresh : Fresh pmm mem pd spaces space) (entry : BitVec 32) (frame i : Nat)
    (hframe : IsFrame frame) (hne : frame ≠ space) (hi : i < 1024) :
    Function.update (clearTable mem space) (slotAddr space 0) entry
      (slotAddr frame i) = mem (slotAddr frame i) := by
  rw [update_clearTable_slot hfresh.aligned hfresh.aligned hframe (by decide) hi,
    if_neg (fun h => hne h.1), if_neg hne]

/-- A fresh frame becomes a directory with the kernel's first entry. -/
theorem PagingInv.newSpace (hinv : PagingInv pmm mem pd spaces) {space : Nat}
    (hfresh : Fresh pmm mem pd spaces space) :
    PagingInv pmm (Function.update (clearTable mem space) (slotAddr space 0)
      (mem (slotAddr pd 0))) pd (space :: spaces) := by
  have hunused := hfresh.unused
  have hother := hfresh.newSpace_slot (mem (slotAddr pd 0))
  have hself : ∀ i < 1024, Function.update (clearTable mem space)
      (slotAddr space 0) (mem (slotAddr pd 0)) (slotAddr space i) =
      if i = 0 then mem (slotAddr pd 0) else 0#32 := by
    intro i hi
    rw [update_clearTable_slot hfresh.aligned hfresh.aligned hfresh.aligned
      (by decide) hi, if_pos (rfl : space = space)]
    simp only [true_and]
  have hdir : ∀ i < 1024, Function.update (clearTable mem space)
      (slotAddr space 0) (mem (slotAddr pd 0)) (slotAddr pd i) =
      mem (slotAddr pd i) :=
    fun i hi => hother _ _ hinv.directory.frame hunused.notDir.symm hi
  have hold := hinv.of_slots hdir fun other hmem i hi =>
    hother _ _ (hinv.unused other hmem).frame
      (fun h => hfresh.notHeld (.inr (.inr (h ▸ hmem)))) hi
  generalize Function.update (clearTable mem space) (slotAddr space 0)
    (mem (slotAddr pd 0)) = mem' at hself hdir hold ⊢
  refine ⟨hold.searchPos, hold.searchLe, hold.directory, hold.first, ?_, ?_, ?_,
    ?_⟩
  · rintro frame (heq | htable | hmem)
    · exact hold.used frame (.inl heq)
    · exact hold.used frame (.inr (.inl htable))
    · rcases List.mem_cons.mp hmem with rfl | hmem
      · exact hfresh.used
      · exact hold.used frame (.inr (.inr hmem))
  · refine List.forall_mem_cons.mpr ⟨?_, hold.unused⟩
    exact ⟨hunused.frame, hunused.notDir,
      fun h => hunused.notTable ((isTable_congr hdir).mp h)⟩
  · refine List.forall_mem_cons.mpr ⟨?_, hold.copied⟩
    rw [hself 0 (by decide), if_pos rfl, hdir 0 (by decide)]
  · refine List.forall_mem_cons.mpr ⟨?_, hold.empty⟩
    intro i hi hne
    rw [hself i hi, if_neg hne]

theorem PagingInv.subset (hinv : PagingInv pmm mem pd spaces)
    {spaces' : List Nat} (hsub : spaces' ⊆ spaces) :
    PagingInv pmm mem pd spaces' :=
  ⟨hinv.searchPos, hinv.searchLe, hinv.directory, hinv.first,
    fun frame hheld => hinv.used frame
      (hheld.imp_right fun h => h.imp_right fun h => hsub h),
    fun space hspace => hinv.unused space (hsub hspace),
    fun space hspace => hinv.copied space (hsub hspace),
    fun space hspace => hinv.empty space (hsub hspace)⟩

end Effects

section Calls

variable {paging next : Paging} {spaces : List Nat}

/-- The entry `vmm_map_page` writes. -/
def pageEntry (phys : Nat) (flags : BitVec 32) : BitVec 32 :=
  (BitVec.ofNat 32 phys &&& vmmAddrMask) ||| (flags ||| vmmPresent)

theorem isPresent_pageEntry (phys : Nat) (flags : BitVec 32) :
    IsPresent (pageEntry phys flags) :=
  isPresent_or_right _ (isPresent_or_right _ isPresent_vmmPresent)

/-- The frame that becomes a table when `virt` is mapped, if one is needed. -/
def freshTable (paging : Paging) (virt : Nat) : Option Nat :=
  if IsPresent (paging.mem (slotAddr paging.pageDirectory (pdIndex virt))) then
    none
  else some (pmmAllocFrame paging.pmm).1

/-- Everything `create_table` can do. -/
theorem createTable_cases (paging : Paging) (virt : Nat) (flags : BitVec 32) :
    (IsPresent (paging.mem (slotAddr paging.pageDirectory (pdIndex virt))) ∧
      createTable paging virt flags = (some (entryTable
        (paging.mem (slotAddr paging.pageDirectory (pdIndex virt)))), paging)) ∨
    (¬ IsPresent (paging.mem (slotAddr paging.pageDirectory (pdIndex virt))) ∧
      ((createTable paging virt flags).1 = none ∨
        ∃ table pmm, pmmAllocFrame paging.pmm = (table, pmm) ∧ table ≠ 0 ∧
          createTable paging virt flags = (some table, { paging with
            pmm := pmm
            mem := Function.update (clearTable paging.mem table)
              (slotAddr paging.pageDirectory (pdIndex virt))
              (BitVec.ofNat 32 table ||| vmmPresent ||| vmmWritable |||
                (flags &&& vmmUser)) }))) := by
  unfold createTable
  dsimp only
  by_cases hpresent : paging.mem (slotAddr paging.pageDirectory
      (pdIndex virt)) &&& vmmPresent ≠ 0
  · exact .inl ⟨hpresent, if_pos hpresent⟩
  · refine .inr ⟨hpresent, ?_⟩
    rw [if_neg hpresent]
    by_cases hzero : (pmmAllocFrame paging.pmm).1 = 0
    · rw [if_pos hzero]
      exact .inl rfl
    · rw [if_neg hzero]
      exact .inr ⟨_, _, rfl, hzero, rfl⟩

/-- A table that is returned was there before, or is a new frame. -/
theorem createTable_eq_some {virt table : Nat} {flags : BitVec 32}
    (hcreate : createTable paging virt flags = (some table, next)) :
    (IsPresent (paging.mem (slotAddr paging.pageDirectory (pdIndex virt))) ∧
      entryTable (paging.mem (slotAddr paging.pageDirectory (pdIndex virt))) =
        table ∧ next = paging) ∨
    (¬ IsPresent (paging.mem (slotAddr paging.pageDirectory (pdIndex virt))) ∧
      ∃ pmm, pmmAllocFrame paging.pmm = (table, pmm) ∧ table ≠ 0 ∧
        next = { paging with
          pmm := pmm
          mem := Function.update (clearTable paging.mem table)
            (slotAddr paging.pageDirectory (pdIndex virt))
            (BitVec.ofNat 32 table ||| vmmPresent ||| vmmWritable |||
              (flags &&& vmmUser)) }) := by
  rcases createTable_cases paging virt flags with
    ⟨hpresent, hold⟩ | ⟨habsent, hnone | ⟨fresh, pmm, halloc, hzero, hnew⟩⟩
  · obtain ⟨htable, hnext⟩ := Prod.mk.inj (hold.symm.trans hcreate)
    exact .inl ⟨hpresent, Option.some.inj htable, hnext.symm⟩
  · rw [hcreate] at hnone
    contradiction
  · obtain ⟨htable, hnext⟩ := Prod.mk.inj (hnew.symm.trans hcreate)
    obtain rfl := Option.some.inj htable
    exact .inr ⟨habsent, pmm, halloc, hzero, hnext.symm⟩

/-- The table for `virt` is there, perhaps in the frame `fresh`, and no
translation has changed. -/
structure ServesPage (paging next : Paging) (virt : Nat) (fresh : Option Nat) :
    Prop where
  pageDirectory : next.pageDirectory = paging.pageDirectory
  kernelPdPhys : next.kernelPdPhys = paging.kernelPdPhys
  present : IsPresent (next.mem (slotAddr paging.pageDirectory (pdIndex virt)))
  walk : ∀ addr < 2 ^ 32, walk next.mem paging.pageDirectory addr =
    walk paging.mem paging.pageDirectory addr
  tables : ∀ frame, IsTable next.mem paging.pageDirectory frame ↔
    IsTable paging.mem paging.pageDirectory frame ∨ fresh = some frame

theorem createTable_spec (hinv : paging.Inv spaces) {virt table : Nat}
    (hvirt : virt < 2 ^ 32) {flags : BitVec 32}
    (hcreate : createTable paging virt flags = (some table, next)) :
    PagingInv next.pmm next.mem paging.pageDirectory spaces ∧
      ServesPage paging next virt (freshTable paging virt) ∧
      entryTable (next.mem (slotAddr paging.pageDirectory (pdIndex virt))) =
        table := by
  rcases createTable_eq_some hcreate with
    ⟨hpresent, htable, rfl⟩ | ⟨habsent, pmm, halloc, hzero, rfl⟩
  · rw [freshTable, if_pos hpresent]
    refine ⟨hinv, ⟨rfl, rfl, hpresent, fun _ _ => rfl, fun frame => ?_⟩, htable⟩
    simp only [reduceCtorEq, or_false]
  · obtain ⟨hinv', hfresh⟩ := hinv.alloc halloc
    have hunused := (hfresh hzero).unused
    rw [freshTable, if_neg habsent, halloc]
    have hentry := entryTable_new hunused.frame flags
    have hpresent := isPresent_new table flags
    generalize BitVec.ofNat 32 table ||| vmmPresent ||| vmmWritable |||
      (flags &&& vmmUser) = entry at hentry hpresent
    refine ⟨hinv'.newTable (hfresh hzero) (pdIndex_lt hvirt) hentry habsent
      hpresent,
      ⟨rfl, rfl, ?_, ?_, ?_⟩, ?_⟩
    · dsimp only
      rw [Function.update_self]
      exact hpresent
    · intro addr haddr
      exact hunused.walk_newTable hinv.directory (pdIndex_lt hvirt) habsent
        hentry haddr
    · intro frame
      rw [hunused.isTable_newTable hinv.directory.frame (pdIndex_lt hvirt)
        habsent hpresent hentry, Option.some.injEq]
    · dsimp only
      rw [Function.update_self]
      exact hentry

/-- What a call leaves of the mappings: the page of `virt` has the entry
`entry`, and at most the frame `fresh` became a table. -/
structure Rewrites (paging next : Paging) (virt : Nat)
    (entry : BitVec 32) (fresh : Option Nat) : Prop where
  pageDirectory : next.pageDirectory = paging.pageDirectory
  kernelPdPhys : next.kernelPdPhys = paging.kernelPdPhys
  walk : ∀ addr < 2 ^ 32, walk next.mem paging.pageDirectory addr =
    if pageFloor addr = pageFloor virt then
      if IsPresent entry then
        some (next.mem (slotAddr paging.pageDirectory (pdIndex virt)), entry)
      else none
    else walk paging.mem paging.pageDirectory addr
  tables : ∀ frame, IsTable next.mem paging.pageDirectory frame ↔
    IsTable paging.mem paging.pageDirectory frame ∨ fresh = some frame

/-- Writing the entry for `virt` once its table is there. -/
theorem ServesPage.writeEntry {virt : Nat} {fresh : Option Nat}
    (hserves : ServesPage paging next virt fresh)
    (hinv : PagingInv next.pmm next.mem paging.pageDirectory spaces)
    (hvirt : virt < 2 ^ 32) (entry : BitVec 32) {table : Nat}
    (htable : entryTable
      (next.mem (slotAddr paging.pageDirectory (pdIndex virt))) = table) :
    Paging.Inv { next with
        mem := Function.update next.mem (slotAddr table (ptIndex virt)) entry }
        spaces ∧
      Rewrites paging { next with
        mem := Function.update next.mem (slotAddr table (ptIndex virt)) entry }
        virt entry fresh := by
  have histable : IsTable next.mem paging.pageDirectory table :=
    ⟨_, pdIndex_lt hvirt, hserves.present, htable⟩
  have hslot := fun i (hi : i < 1024) =>
    hinv.directory.slot_update histable hi (ptIndex_lt virt) entry
  refine ⟨?_, hserves.pageDirectory, hserves.kernelPdPhys, ?_, ?_⟩
  · rw [Paging.Inv, hserves.pageDirectory]
    exact hinv.writeEntry histable (ptIndex_lt virt) entry
  · intro addr haddr
    have hwalk := hinv.directory.walk_update hvirt hserves.present entry haddr
    rw [htable, hserves.walk addr haddr] at hwalk
    dsimp only
    rw [hwalk, hslot _ (pdIndex_lt hvirt)]
  · intro frame
    exact (isTable_congr hslot).trans (hserves.tables frame)

theorem vmmMapPage_eq_some {virt phys : Nat} {flags : BitVec 32}
    (hmap : vmmMapPage paging virt phys flags = some next) : ∃ table mid,
      createTable paging virt flags = (some table, mid) ∧
      next = { mid with
        mem := Function.update mid.mem (slotAddr table (ptIndex virt))
          (pageEntry phys flags) } := by
  unfold vmmMapPage at hmap
  rcases hcreate : createTable paging virt flags with ⟨_ | table, mid⟩
  · rw [hcreate] at hmap
    contradiction
  · rw [hcreate] at hmap
    exact ⟨table, mid, rfl, (Option.some.inj hmap).symm⟩

/-- Mapping a page takes at most one frame. -/
theorem vmmMapPage_pmm {virt phys : Nat} {flags : BitVec 32}
    (hmap : vmmMapPage paging virt phys flags = some next) :
    next.pmm = paging.pmm ∨
      ∃ table, pmmAllocFrame paging.pmm = (table, next.pmm) := by
  obtain ⟨table, mid, hcreate, rfl⟩ := vmmMapPage_eq_some hmap
  rcases createTable_eq_some hcreate with
    ⟨-, -, rfl⟩ | ⟨-, pmm, halloc, -, rfl⟩
  · exact .inl rfl
  · exact .inr ⟨table, halloc⟩

/-- Mapping a page writes one entry, in a table that may be new. -/
theorem vmmMapPage_spec (hinv : paging.Inv spaces) {virt phys : Nat}
    (hvirt : virt < 2 ^ 32) {flags : BitVec 32}
    (hmap : vmmMapPage paging virt phys flags = some next) :
    next.Inv spaces ∧ Rewrites paging next virt (pageEntry phys flags)
      (freshTable paging virt) := by
  obtain ⟨table, mid, hcreate, rfl⟩ := vmmMapPage_eq_some hmap
  obtain ⟨hinv', hserves, htable⟩ := createTable_spec hinv hvirt hcreate
  exact hserves.writeEntry hinv' hvirt (pageEntry phys flags) htable

theorem pageEntry_of_frame {frame : Nat} (hframe : IsFrame frame)
    (flags : BitVec 32) :
    pageEntry frame flags = BitVec.ofNat 32 frame ||| (flags ||| vmmPresent) := by
  have hmask : BitVec.ofNat 32 frame &&& vmmAddrMask = BitVec.ofNat 32 frame := by
    have hzero := @entryTable_or frame hframe 0#32 (by decide)
    rw [BitVec.or_zero] at hzero
    apply BitVec.eq_of_toNat_eq
    rw [BitVec.toNat_ofNat, Nat.mod_eq_of_lt hframe.2]
    exact hzero
  rw [pageEntry, hmask]

theorem entryTable_pageEntry {frame : Nat} (hframe : IsFrame frame)
    {flags : BitVec 32} (hflags : flags &&& vmmAddrMask = 0#32) :
    entryTable (pageEntry frame flags) = frame := by
  rw [pageEntry_of_frame hframe]
  exact entryTable_or hframe (or_and_vmmAddrMask hflags (by decide))

/-- Mapping a page frees no frame. -/
theorem vmmMapPage_used (hinv : paging.Inv spaces) {virt phys : Nat}
    {flags : BitVec 32}
    (hmap : vmmMapPage paging virt phys flags = some next) {frame : Nat}
    (hused : bitmapTest paging.pmm frame = true) :
    bitmapTest next.pmm frame = true := by
  rcases vmmMapPage_pmm hmap with hsame | ⟨table, halloc⟩
  · rw [hsame]
    exact hused
  · exact (pmmAllocFrame_allocates hinv.searchPos hinv.searchLe halloc).keeps
      frame hused

/-- Unmapping clears one entry, if its table is there. -/
theorem vmmUnmapPage_spec (hinv : paging.Inv spaces) {virt : Nat}
    (hvirt : virt < 2 ^ 32) :
    (vmmUnmapPage paging virt).Inv spaces ∧
      Rewrites paging (vmmUnmapPage paging virt) virt 0#32 none := by
  have hsame : ∀ frame, IsTable paging.mem paging.pageDirectory frame ↔
      IsTable paging.mem paging.pageDirectory frame ∨
        (none : Option Nat) = some frame := by
    intro frame
    simp only [reduceCtorEq, or_false]
  by_cases hpresent : paging.mem (slotAddr paging.pageDirectory
      (pdIndex virt)) &&& vmmPresent = 0
  · have heq : vmmUnmapPage paging virt = paging := if_pos hpresent
    rw [heq]
    refine ⟨hinv, rfl, rfl, ?_, hsame⟩
    intro addr haddr
    rw [if_neg not_isPresent_zero]
    by_cases hpage : pageFloor addr = pageFloor virt
    · rw [if_pos hpage]
      unfold walk
      dsimp only
      rw [(pageFloor_eq_iff.mp hpage).1, if_neg (fun h => h hpresent)]
    · rw [if_neg hpage]
  · have hserves : ServesPage paging paging virt none :=
      ⟨rfl, rfl, hpresent, fun _ _ => rfl, hsame⟩
    have hresult := hserves.writeEntry hinv hvirt 0#32 rfl
    have heq : vmmUnmapPage paging virt = { paging with
        mem := Function.update paging.mem (slotAddr (entryTable
          (paging.mem (slotAddr paging.pageDirectory (pdIndex virt))))
          (ptIndex virt)) 0#32 } := if_neg hpresent
    rw [heq]
    exact hresult

/-- No translation and no table has changed. -/
structure KeepsMappings (paging next : Paging) : Prop where
  pageDirectory : next.pageDirectory = paging.pageDirectory
  kernelPdPhys : next.kernelPdPhys = paging.kernelPdPhys
  walk : ∀ addr < 2 ^ 32, walk next.mem paging.pageDirectory addr =
    walk paging.mem paging.pageDirectory addr
  tables : ∀ frame, IsTable next.mem paging.pageDirectory frame ↔
    IsTable paging.mem paging.pageDirectory frame

/-- Creating an address space writes one fresh frame. -/
theorem vmmCreateAddressSpace_spec
    (hinv : paging.Inv spaces)
    (hmaster : paging.kernelPdPhys = paging.pageDirectory) {pdPhys : Nat}
    (hcreate : vmmCreateAddressSpace paging = (pdPhys, next)) :
    KeepsMappings paging next ∧
      next.Inv (if pdPhys = 0 then spaces else pdPhys :: spaces) := by
  rcases halloc : pmmAllocFrame paging.pmm with ⟨frame, pmm⟩
  obtain ⟨hinv', hfresh⟩ := hinv.alloc halloc
  unfold vmmCreateAddressSpace at hcreate
  simp only [halloc] at hcreate
  by_cases hzero : frame = 0
  · rw [if_pos hzero] at hcreate
    obtain ⟨rfl, rfl⟩ := Prod.mk.inj hcreate
    exact ⟨⟨rfl, rfl, fun _ _ => rfl, fun _ => Iff.rfl⟩, hinv'⟩
  · rw [if_neg hzero] at hcreate
    obtain ⟨rfl, rfl⟩ := Prod.mk.inj hcreate
    have hunused := (hfresh hzero).unused
    have hkernel : clearTable paging.mem frame (slotAddr paging.kernelPdPhys 0) =
        paging.mem (slotAddr paging.pageDirectory 0) := by
      rw [hmaster, clearTable_eq, fillSlots_other hunused.frame
        hinv.directory.frame hunused.notDir.symm (Nat.le_refl _) (by decide)]
    rw [if_neg hzero, hkernel]
    have hslot := (hfresh hzero).newSpace_slot
      (paging.mem (slotAddr paging.pageDirectory 0))
    refine ⟨⟨rfl, rfl, ?_, ?_⟩, hinv'.newSpace (hfresh hzero)⟩
    · intro addr haddr
      apply walk_congr
      · exact hslot _ _ hinv.directory.frame hunused.notDir.symm
          (pdIndex_lt haddr)
      · intro hpresent
        apply hslot _ _ (entryTable_isFrame _) _ (ptIndex_lt addr)
        intro heq
        exact hunused.notTable ⟨_, pdIndex_lt haddr, hpresent, heq⟩
    · intro frame
      exact isTable_congr fun i hi =>
        hslot _ _ hinv.directory.frame hunused.notDir.symm hi

/-- A directory made by `vmm_create_address_space` has no table of its own, so
destroying it frees nothing. -/
theorem vmmDestroyAddressSpace_eq (hinv : paging.Inv spaces) {space : Nat}
    (hspace : space ∈ spaces) :
    vmmDestroyAddressSpace paging space = paging := by
  unfold vmmDestroyAddressSpace
  by_cases hkernel : space = 0 ∨ space = paging.kernelPdPhys
  · exact if_pos hkernel
  · rw [if_neg hkernel]
    apply List.foldlRecOn (motive := fun result => result = paging) _ _ rfl
    rintro result rfl i hi
    obtain ⟨hlow, hhigh⟩ := List.mem_range'_1.mp hi
    rw [hinv.empty space hspace i (by omega) (by omega)]
    exact if_pos (by decide)

end Calls

/-- The invariant of the whole system; the heap lies below its ceiling. -/
structure VmmSystem.Inv (sys : VmmSystem) : Prop where
  tables : PagingInv sys.paging.pmm sys.paging.mem sys.paging.pageDirectory
    sys.spaces
  master : sys.paging.kernelPdPhys = sys.paging.pageDirectory
  heapLow : heapStart ≤ sys.heapVirtMapped
  heapHigh : sys.heapVirtMapped ≤ heapMax

/-- Everything a round of heap growth can do. -/
theorem VmmSystem.grow_cases {sys next : VmmSystem}
    (hgrow : sys.grow = some next) :
    next = sys ∨
    ∃ phys pmm, pmmAllocFrame sys.paging.pmm = (phys, pmm) ∧
      u32 (sys.heapVirtMapped + pageSize) ≤ heapMax ∧
      ((phys = 0 ∧
          next = { sys with paging := { sys.paging with pmm := pmm } }) ∨
        phys ≠ 0 ∧ ∃ paging,
          vmmMapPage { sys.paging with pmm := pmm } sys.heapVirtMapped phys
            vmmKernelRw = some paging ∧
          next = { sys with
            paging := paging
            heapVirtMapped := u32 (sys.heapVirtMapped + pageSize) }) := by
  unfold VmmSystem.grow at hgrow
  by_cases hceiling : heapMax < u32 (sys.heapVirtMapped + pageSize)
  · rw [if_pos hceiling] at hgrow
    exact .inl (Option.some.inj hgrow).symm
  · rw [if_neg hceiling] at hgrow
    refine .inr ⟨_, _, rfl, Nat.le_of_not_lt hceiling, ?_⟩
    dsimp only at hgrow
    by_cases hzero : (pmmAllocFrame sys.paging.pmm).1 = 0
    · rw [if_pos hzero] at hgrow
      exact .inl ⟨hzero, (Option.some.inj hgrow).symm⟩
    · rw [if_neg hzero] at hgrow
      obtain ⟨paging, hmap, heq⟩ := Option.map_eq_some_iff.mp hgrow
      exact .inr ⟨hzero, paging, hmap, heq.symm⟩

theorem VmmSystem.Inv.heap_lt {sys : VmmSystem} (hinv : sys.Inv) :
    sys.heapVirtMapped < 2 ^ 32 := by
  have hhigh := hinv.heapHigh
  simp only [heapMax] at hhigh
  omega

/-- A call that leaves the two directory pointers alone. -/
theorem VmmSystem.Inv.renew {sys : VmmSystem} (hinv : sys.Inv)
    {paging : Paging} {heapVirtMapped : Nat} {spaces : List Nat}
    (htables : paging.Inv spaces)
    (hpd : paging.pageDirectory = sys.paging.pageDirectory)
    (hkernel : paging.kernelPdPhys = sys.paging.kernelPdPhys)
    (hlow : heapStart ≤ heapVirtMapped) (hhigh : heapVirtMapped ≤ heapMax) :
    VmmSystem.Inv ⟨paging, heapVirtMapped, spaces⟩ :=
  ⟨htables, hkernel.trans (hinv.master.trans hpd.symm), hlow, hhigh⟩

theorem VmmSystem.grow_inv {sys next : VmmSystem} (hinv : sys.Inv)
    (hgrow : sys.grow = some next) : next.Inv := by
  rcases grow_cases hgrow with
    rfl | ⟨phys, pmm, halloc, hceiling, ⟨_, rfl⟩ | ⟨_, paging, hmap, rfl⟩⟩
  · exact hinv
  · exact ⟨(hinv.tables.alloc halloc).1, hinv.master, hinv.heapLow,
      hinv.heapHigh⟩
  · obtain ⟨htables, hrewrites⟩ := vmmMapPage_spec
      (hinv.tables.alloc halloc).1 hinv.heap_lt hmap
    have hlow := hinv.heapLow
    have hhigh := hinv.heapHigh
    apply hinv.renew htables hrewrites.pageDirectory hrewrites.kernelPdPhys _
      hceiling
    simp only [u32, heapMax, heapStart, pageSize] at hlow hhigh ⊢
    omega

theorem VmmSystem.step_inv (sys : VmmSystem) (call : VmmCall)
    (next : VmmSystem) (hinv : sys.Inv) (hstep : sys.step call = some next) :
    next.Inv := by
  cases call with
  | grow => exact grow_inv hinv hstep
  | mapPage virt phys flags =>
      obtain ⟨paging, hmap, rfl⟩ := Option.map_eq_some_iff.mp hstep
      obtain ⟨htables, hrewrites⟩ := vmmMapPage_spec hinv.tables
        virt.toNat_lt hmap
      exact hinv.renew htables hrewrites.pageDirectory hrewrites.kernelPdPhys
        hinv.heapLow hinv.heapHigh
  | unmapPage virt =>
      obtain rfl := Option.some.inj hstep
      obtain ⟨htables, hrewrites⟩ := vmmUnmapPage_spec hinv.tables
        virt.toNat_lt
      exact hinv.renew htables hrewrites.pageDirectory hrewrites.kernelPdPhys
        hinv.heapLow hinv.heapHigh
  | getPhys virt => exact Option.some.inj hstep ▸ hinv
  | isMapped virt => exact Option.some.inj hstep ▸ hinv
  | createAddressSpace =>
      obtain rfl := Option.some.inj hstep
      obtain ⟨hkeeps, htables⟩ :=
        vmmCreateAddressSpace_spec hinv.tables hinv.master rfl
      exact hinv.renew htables hkeeps.pageDirectory hkeeps.kernelPdPhys
        hinv.heapLow hinv.heapHigh
  | destroyAddressSpace space =>
      simp only [step] at hstep
      by_cases hspace : space ∈ sys.spaces
      · rw [if_pos hspace, vmmDestroyAddressSpace_eq hinv.tables hspace] at hstep
        obtain rfl := Option.some.inj hstep
        exact hinv.renew (hinv.tables.subset List.erase_subset) rfl rfl
          hinv.heapLow hinv.heapHigh
      · rw [if_neg hspace] at hstep
        contradiction

/-- What `vmm_init` leaves: one table, with the identity map of 4 MB. -/
structure Booted (paging : Paging) : Prop where
  tables : PagingInv paging.pmm paging.mem paging.pageDirectory []
  master : paging.kernelPdPhys = paging.pageDirectory
  table : ∀ frame, IsTable paging.mem paging.pageDirectory frame ↔
    entryTable (paging.mem (slotAddr paging.pageDirectory 0)) = frame
  translate : ∀ addr < 2 ^ 32,
    translate paging.mem paging.pageDirectory addr =
      if addr < 2 ^ 22 then some addr else none

/-- The memory `vmm_init` writes. -/
structure FirstTable (mem : PhysMem) (pd pt0 : Nat) : Prop where
  slot : ∀ i < 1024, mem (slotAddr pd i) =
    if i = 0 then BitVec.ofNat 32 pt0 ||| vmmKernelRw else 0#32
  identity : ∀ i < 1024, mem (slotAddr pt0 i) =
    BitVec.ofNat 32 (i * pageSize) ||| vmmKernelRw

theorem firstTable {mem : PhysMem} {pd pt0 : Nat} (hpd : IsFrame pd)
    (hpt0 : IsFrame pt0) (hne : pt0 ≠ pd) :
    FirstTable (Function.update (identityTable (clearTable mem pd) pt0)
      (slotAddr pd 0) (BitVec.ofNat 32 pt0 ||| vmmKernelRw)) pd pt0 := by
  constructor
  · intro i hi
    by_cases hzero : i = 0
    · rw [hzero, if_pos rfl, Function.update_self]
    · rw [if_neg hzero, Function.update_of_ne, identityTable_eq,
        fillSlots_other hpt0 hpd hne.symm (Nat.le_refl _) hi, clearTable_eq,
        fillSlots_slot hi]
      intro heq
      exact hzero ((slotAddr_inj hpd hpd hi (by decide)).mp heq).2
  · intro i hi
    rw [update_table_of_ne hpd hpt0 hne hi (by decide), identityTable_eq,
      fillSlots_slot hi]

section FirstTable

variable {mem : PhysMem} {pd pt0 : Nat}

theorem isPresent_vmmKernelRw (frame : Nat) :
    IsPresent (BitVec.ofNat 32 frame ||| vmmKernelRw) :=
  isPresent_or_right _ (by decide)

theorem FirstTable.slot_present (hmem : FirstTable mem pd pt0) {i : Nat}
    (hi : i < 1024) (hpresent : IsPresent (mem (slotAddr pd i))) : i = 0 := by
  by_contra hne
  rw [hmem.slot i hi, if_neg hne] at hpresent
  exact not_isPresent_zero hpresent

theorem FirstTable.slot_zero (hmem : FirstTable mem pd pt0) :
    mem (slotAddr pd 0) = BitVec.ofNat 32 pt0 ||| vmmKernelRw := by
  rw [hmem.slot 0 (by decide), if_pos rfl]

theorem FirstTable.isTable (hmem : FirstTable mem pd pt0) (hpt0 : IsFrame pt0)
    {frame : Nat} : IsTable mem pd frame ↔ pt0 = frame := by
  constructor
  · rintro ⟨i, hi, hpresent, heq⟩
    rw [hmem.slot_present hi hpresent, hmem.slot_zero,
      entryTable_or hpt0 (by decide)] at heq
    exact heq
  · rintro rfl
    refine ⟨0, by decide, ?_⟩
    rw [hmem.slot_zero]
    exact ⟨isPresent_vmmKernelRw pt0, entryTable_or hpt0 (by decide)⟩

theorem FirstTable.walk (hmem : FirstTable mem pd pt0) (hpt0 : IsFrame pt0)
    {addr : Nat} (haddr : addr < 2 ^ 32) :
    walk mem pd addr =
      if addr < 2 ^ 22 then
        some (BitVec.ofNat 32 pt0 ||| vmmKernelRw,
          BitVec.ofNat 32 (pageFloor addr) ||| vmmKernelRw)
      else none := by
  unfold Orion.walk
  dsimp only
  rw [hmem.slot _ (pdIndex_lt haddr)]
  by_cases hlow : addr < 2 ^ 22
  · have hindex : pdIndex addr = 0 := Nat.div_eq_of_lt hlow
    have hpage : ptIndex addr * pageSize = pageFloor addr := by
      simp only [ptIndex, pageFloor, pageSize]
      omega
    rw [if_pos hindex, if_pos (isPresent_vmmKernelRw pt0),
      entryTable_or hpt0 (by decide), hmem.identity _ (ptIndex_lt addr),
      if_pos (isPresent_vmmKernelRw _), if_pos hlow, hpage]
  · have hindex : pdIndex addr ≠ 0 := by
      unfold pdIndex
      omega
    rw [if_neg hindex, if_neg not_isPresent_zero, if_neg hlow]

theorem FirstTable.translate (hmem : FirstTable mem pd pt0)
    (hpt0 : IsFrame pt0) {addr : Nat} (haddr : addr < 2 ^ 32) :
    translate mem pd addr = if addr < 2 ^ 22 then some addr else none := by
  rw [Orion.translate, hmem.walk hpt0 haddr]
  by_cases hlow : addr < 2 ^ 22
  · have hpage : IsFrame (pageFloor addr) := by
      simp only [IsFrame, pageFloor, pageSize]
      omega
    rw [if_pos hlow, if_pos hlow, Option.map_some,
      entryTable_or hpage (by decide), Option.some.injEq]
    simp only [pageFloor, pageSize]
    omega
  · rw [if_neg hlow, if_neg hlow]
    rfl

theorem FirstTable.pagingInv (hmem : FirstTable mem pd pt0) {pmm : Pmm}
    (hpos : 1 ≤ pmm.allocSearch) (hle : pmm.allocSearch ≤ pmmMaxFrames)
    (hpd : IsFrame pd) (hpt0 : IsFrame pt0) (hne : pt0 ≠ pd)
    (hpdUsed : bitmapTest pmm (addrToFrame pd) = true)
    (hpt0Used : bitmapTest pmm (addrToFrame pt0) = true) :
    PagingInv pmm mem pd [] := by
  refine ⟨hpos, hle, ⟨hpd, fun h => hne ((hmem.isTable hpt0).mp h), ?_⟩, ?_,
    ?_, fun _ h => ?_, fun _ h => ?_, fun _ h => ?_⟩
  · intro i hi j hj hi' hj' _
    rw [hmem.slot_present hi hi', hmem.slot_present hj hj']
  · rw [hmem.slot_zero]
    exact isPresent_vmmKernelRw pt0
  · rintro frame (rfl | h | h)
    · exact hpdUsed
    · exact (hmem.isTable hpt0).mp h ▸ hpt0Used
    · contradiction
  all_goals contradiction

end FirstTable

/-- The first table lies in a frame of its own. -/
theorem vmmInit_firstTable {paging next : Paging}
    (hpos : 1 ≤ paging.pmm.allocSearch)
    (hle : paging.pmm.allocSearch ≤ pmmMaxFrames)
    (hinit : vmmInit paging = some next) :
    ∃ pt0, FirstTable next.mem next.pageDirectory pt0 ∧ IsFrame pt0 ∧
      next.Inv [] ∧
      next.kernelPdPhys = next.pageDirectory := by
  rcases hfirst : pmmAllocFrame paging.pmm with ⟨pd, pmm⟩
  rcases hsecond : pmmAllocFrame pmm with ⟨pt0, pmm'⟩
  have hpd := pmmAllocFrame_allocates hpos hle hfirst
  have hpt0 := pmmAllocFrame_allocates hpd.searchPos hpd.searchLe hsecond
  unfold vmmInit at hinit
  simp only [hfirst, hsecond] at hinit
  by_cases hpdZero : pd = 0
  · rw [if_pos hpdZero] at hinit
    contradiction
  · by_cases hpt0Zero : pt0 = 0
    · rw [if_neg hpdZero, if_pos hpt0Zero] at hinit
      contradiction
    · rw [if_neg hpdZero, if_neg hpt0Zero] at hinit
      obtain rfl := Option.some.inj hinit
      obtain ⟨hpdFrame, -, hpdUsed⟩ := hpd.takes hpdZero
      obtain ⟨hpt0Frame, hpt0Clear, hpt0Used⟩ := hpt0.takes hpt0Zero
      have hne : pt0 ≠ pd := by
        rintro rfl
        rw [hpdUsed] at hpt0Clear
        contradiction
      have hmem := @firstTable paging.mem _ _ hpdFrame hpt0Frame hne
      exact ⟨pt0, hmem, hpt0Frame, hmem.pagingInv hpt0.searchPos hpt0.searchLe
        hpdFrame hpt0Frame hne (hpt0.keeps _ hpdUsed) hpt0Used, rfl⟩

theorem vmmInit_booted {paging next : Paging}
    (hpos : 1 ≤ paging.pmm.allocSearch)
    (hle : paging.pmm.allocSearch ≤ pmmMaxFrames)
    (hinit : vmmInit paging = some next) : Booted next := by
  obtain ⟨pt0, hmem, hpt0, htables, hmaster⟩ :=
    vmmInit_firstTable hpos hle hinit
  refine ⟨htables, hmaster, ?_, ?_⟩
  · intro frame
    rw [hmem.isTable hpt0, hmem.slot_zero, entryTable_or hpt0 (by decide)]
  · exact fun addr haddr => hmem.translate hpt0 haddr

/-- Whatever the memory map and the memory contain, boot ends in such a
state. -/
theorem VmmSystem.boot_booted {mbi : MultibootInfo}
    {kernelPhysStart kernelPhysEnd : UInt32} {mem : PhysMem} {sys : VmmSystem}
    (hboot : VmmSystem.boot mbi kernelPhysStart kernelPhysEnd mem = some sys) :
    Booted sys.paging ∧ sys.heapVirtMapped = heapStart ∧ sys.spaces = [] := by
  obtain ⟨paging, hinit, rfl⟩ := Option.map_eq_some_iff.mp hboot
  have hsearch := pmmInit_allocSearch Pmm.boot mbi kernelPhysStart kernelPhysEnd
  refine ⟨vmmInit_booted ?_ ?_ hinit, rfl, rfl⟩
  · exact hsearch.symm ▸ Nat.le_refl 1
  · exact hsearch.symm ▸ (by decide : 1 ≤ pmmMaxFrames)

theorem VmmSystem.boot_inv {mbi : MultibootInfo}
    {kernelPhysStart kernelPhysEnd : UInt32} {mem : PhysMem} {sys : VmmSystem}
    (hboot : VmmSystem.boot mbi kernelPhysStart kernelPhysEnd mem = some sys) :
    sys.Inv := by
  obtain ⟨hbooted, hheap, hspaces⟩ := boot_booted hboot
  refine ⟨hspaces ▸ hbooted.tables, hbooted.master, hheap.ge, ?_⟩
  rw [hheap]
  decide

end Orion
