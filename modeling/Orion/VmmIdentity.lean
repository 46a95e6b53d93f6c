/-
Pointers into physical memory.  The virtual memory manager dereferences the
physical addresses of directories and tables, which is right only where the
active directory maps them to themselves.  The accesses of every call are
listed with the memory of their moment; the guard below is exact for all of
them to be valid.
-/
import Orion.VmmSystem

namespace Orion

open MachineInt

/-- A pointer that was dereferenced, and memory when it was. -/
structure Access where
  mem : PhysMem
  frame : Nat

/-- The directory maps the frame to itself. -/
def Access.valid (pd : Nat) (access : Access) : Bool :=
  translate access.mem pd access.frame == some access.frame

/-- The stores that zero a fresh table or directory. -/
def clearAccesses (mem : PhysMem) (table : Nat) : List Access :=
  (List.range 1024).map fun i => ⟨fillSlots mem table (fun _ => 0#32) i, table⟩

def createTableAccesses (paging : Paging) (virt : Nat) : List Access :=
  let pde := paging.mem (slotAddr paging.pageDirectory (pdIndex virt))
  ⟨paging.mem, paging.pageDirectory⟩ ::
    if IsPresent pde then [⟨paging.mem, paging.pageDirectory⟩]
    else
      let ptPhys := (pmmAllocFrame paging.pmm).1
      if ptPhys = 0 then []
      else clearAccesses paging.mem ptPhys ++
        [⟨clearTable paging.mem ptPhys, paging.pageDirectory⟩]

def vmmMapPageAccesses (paging : Paging) (virt : Nat) (flags : BitVec 32) :
    List Access :=
  createTableAccesses paging virt ++
    match createTable paging virt flags with
    | (none, _) => []
    | (some table, paging) => [⟨paging.mem, table⟩]

/-- The accesses of `vmm_is_mapped`, `vmm_get_phys` and `vmm_unmap_page`. -/
def lookupAccesses (paging : Paging) (virt : Nat) : List Access :=
  let pde := paging.mem (slotAddr paging.pageDirectory (pdIndex virt))
  ⟨paging.mem, paging.pageDirectory⟩ ::
    if IsPresent pde then
      [⟨paging.mem, paging.pageDirectory⟩, ⟨paging.mem, entryTable pde⟩]
    else []

def vmmCreateAddressSpaceAccesses (paging : Paging) : List Access :=
  let pdPhys := (pmmAllocFrame paging.pmm).1
  if pdPhys = 0 then []
  else
    let mem := clearTable paging.mem pdPhys
    clearAccesses paging.mem pdPhys ++
      [⟨mem, paging.kernelPdPhys⟩, ⟨mem, pdPhys⟩]

/-- The accesses of a call.  Destroying an address space is not among the
calls whose accesses are followed. -/
def VmmSystem.accesses (sys : VmmSystem) : VmmCall → List Access
  | .grow =>
      if heapMax < u32 (sys.heapVirtMapped + pageSize) then []
      else
        let (phys, pmm) := pmmAllocFrame sys.paging.pmm
        if phys = 0 then []
        else vmmMapPageAccesses { sys.paging with pmm := pmm }
          sys.heapVirtMapped vmmKernelRw
  | .mapPage virt _ flags => vmmMapPageAccesses sys.paging virt.toNat flags
  | .unmapPage virt => lookupAccesses sys.paging virt.toNat
  | .getPhys virt => lookupAccesses sys.paging virt.toNat
  | .isMapped virt => lookupAccesses sys.paging virt.toNat
  | .createAddressSpace => vmmCreateAddressSpaceAccesses sys.paging
  | .destroyAddressSpace _ => []

/-- A system with a record of whether all accesses so far were valid. -/
structure VmmWatch where
  sys : VmmSystem
  sound : Bool

def VmmWatch.step (watch : VmmWatch) (call : VmmCall) : Option VmmWatch :=
  (watch.sys.step call).map fun sys =>
    ⟨sys, (watch.sys.accesses call).all
      (Access.valid watch.sys.paging.pageDirectory) && watch.sound⟩

/-- Every access so far was valid, and so is every lookup from here. -/
def VmmWatch.Valid (watch : VmmWatch) : Prop :=
  watch.sound = true ∧ ∀ virt : UInt32,
    (lookupAccesses watch.sys.paging virt.toNat).all
      (Access.valid watch.sys.paging.pageDirectory) = true

/-- The frame holds the active directory or one of its tables. -/
def IsKernelFrame (paging : Paging) (frame : Nat) : Prop :=
  frame = paging.pageDirectory ∨
    IsTable paging.mem paging.pageDirectory frame

instance (mem : PhysMem) (pd frame : Nat) : Decidable (IsTable mem pd frame) :=
  inferInstanceAs (Decidable (∃ i < 1024, _))

instance (paging : Paging) (frame : Nat) :
    Decidable (IsKernelFrame paging frame) :=
  inferInstanceAs (Decidable (_ ∨ _))

def identityMapped (paging : Paging) (frame : Nat) : Bool :=
  Access.valid paging.pageDirectory ⟨paging.mem, frame⟩

/-- A new table is identity mapped, and a page that holds a directory or a
table is mapped to itself again. -/
def mapKeepsIdentity (paging : Paging) (virt : Nat) (entry : BitVec 32) : Bool :=
  (freshTable paging virt).all (identityMapped paging) &&
    (entryTable entry == pageFloor virt ||
      !decide (IsKernelFrame paging (pageFloor virt)))

/-- The calls after which every pointer is still good. -/
def VmmSystem.keepsIdentity (sys : VmmSystem) : VmmCall → Bool
  | .grow =>
      if heapMax < u32 (sys.heapVirtMapped + pageSize) then true
      else
        let (phys, pmm) := pmmAllocFrame sys.paging.pmm
        if phys = 0 then true
        else mapKeepsIdentity { sys.paging with pmm := pmm } sys.heapVirtMapped
          (pageEntry phys vmmKernelRw)
  | .mapPage virt phys flags =>
      mapKeepsIdentity sys.paging virt.toNat (pageEntry phys.toNat flags)
  | .unmapPage virt => !decide (IsKernelFrame sys.paging (pageFloor virt.toNat))
  | .getPhys _ => true
  | .isMapped _ => true
  | .createAddressSpace =>
      let pdPhys := (pmmAllocFrame sys.paging.pmm).1
      pdPhys = 0 || identityMapped sys.paging pdPhys
  | .destroyAddressSpace _ => true

/-- Every directory and table in use is identity mapped. -/
def KernelIdentity (paging : Paging) : Prop :=
  ∀ frame, IsKernelFrame paging frame →
    translate paging.mem paging.pageDirectory frame = some frame

section Accesses

theorem access_valid_iff {pd frame : Nat} {mem : PhysMem} :
    Access.valid pd ⟨mem, frame⟩ = true ↔ translate mem pd frame = some frame :=
  beq_iff_eq

theorem translate_of_walk {mem mem' : PhysMem} {pd virt : Nat}
    (hwalk : walk mem' pd virt = walk mem pd virt) :
    translate mem' pd virt = translate mem pd virt :=
  congrArg (Option.map _) hwalk

/-- All lookups are valid exactly when the directory and its tables are
identity mapped. -/
theorem lookupAccesses_valid_iff {paging : Paging} :
    (∀ virt : UInt32, (lookupAccesses paging virt.toNat).all
      (Access.valid paging.pageDirectory) = true) ↔ KernelIdentity paging := by
  constructor
  · rintro hvalid frame (rfl | ⟨i, hi, hpresent, rfl⟩)
    · have h := hvalid 0
      rw [lookupAccesses, List.all_cons, Bool.and_eq_true] at h
      exact access_valid_iff.mp h.1
    · have hvirt : (UInt32.ofNat (i * 2 ^ 22)).toNat = i * 2 ^ 22 := by
        rw [UInt32.toNat_ofNat']
        omega
      have h := hvalid (UInt32.ofNat (i * 2 ^ 22))
      have hindex : pdIndex (i * 2 ^ 22) = i :=
        Nat.mul_div_cancel i (by decide)
      rw [hvirt, lookupAccesses, hindex, if_pos hpresent] at h
      simp only [List.all_cons, List.all_nil, Bool.and_true,
        Bool.and_eq_true] at h
      exact access_valid_iff.mp h.2.2
  · intro hidentity virt
    have hpd := access_valid_iff.mpr (hidentity _ (.inl rfl))
    unfold lookupAccesses
    dsimp only
    by_cases hpresent : IsPresent (paging.mem
        (slotAddr paging.pageDirectory (pdIndex virt.toNat)))
    · have htable := access_valid_iff.mpr (hidentity _
        (.inr ⟨_, pdIndex_lt virt.toNat_lt, hpresent, rfl⟩))
      rw [if_pos hpresent]
      simp only [List.all_cons, List.all_nil, hpd, htable, Bool.and_self]
    · rw [if_neg hpresent]
      simp only [List.all_cons, List.all_nil, hpd, Bool.and_self]

theorem clearAccesses_valid {mem : PhysMem} {pd table : Nat}
    (hpd : IsFrame pd) (hunused : Unused mem pd table) :
    (clearAccesses mem table).all (Access.valid pd) =
      Access.valid pd ⟨mem, table⟩ := by
  have hsame : ∀ i < 1024,
      Access.valid pd ⟨fillSlots mem table (fun _ => 0#32) i, table⟩ =
        Access.valid pd ⟨mem, table⟩ := by
    intro i hi
    unfold Access.valid
    dsimp only
    rw [translate_of_walk
      (hunused.walk_fillSlots hpd (Nat.le_of_lt hi) hunused.frame.2)]
  rw [Bool.eq_iff_iff, clearAccesses, List.all_map, List.all_eq_true]
  constructor
  · intro hall
    rw [← hsame 0 (by decide)]
    exact hall 0 (List.mem_range.mpr (by decide))
  · intro hvalid i hi
    rw [← hsame i (List.mem_range.mp hi)] at hvalid
    exact hvalid

variable {paging next : Paging} {spaces : List Nat}
  (hinv : paging.Inv spaces)
  (hidentity : KernelIdentity paging)

include hinv hidentity

/-- Mapping a page goes wrong at a new table only. -/
theorem vmmMapPageAccesses_valid {virt phys : Nat} (hvirt : virt < 2 ^ 32)
    {flags : BitVec 32} (hmap : vmmMapPage paging virt phys flags = some next) :
    (vmmMapPageAccesses paging virt flags).all
        (Access.valid paging.pageDirectory) =
      (freshTable paging virt).all (identityMapped paging) := by
  have hpd := access_valid_iff.mpr (hidentity _ (.inl rfl))
  unfold vmmMapPageAccesses createTableAccesses freshTable
  dsimp only
  rcases createTable_cases paging virt flags with
    ⟨hpresent, hcreate⟩ | ⟨habsent, hnone | ⟨table, pmm, halloc, hzero, hcreate⟩⟩
  · have htable := access_valid_iff.mpr
      (hidentity _ (.inr ⟨_, pdIndex_lt hvirt, hpresent, rfl⟩))
    rw [hcreate, if_pos hpresent, if_pos hpresent]
    simp only [List.all_append, List.all_cons, List.all_nil, hpd, htable,
      Bool.and_self, Option.all_none]
  · rcases hresult : createTable paging virt flags with ⟨table, paging'⟩
    rw [hresult] at hnone
    subst hnone
    rw [vmmMapPage, hresult] at hmap
    contradiction
  · have hfresh := (hinv.alloc halloc).2 hzero
    have hunused := hfresh.unused
    obtain ⟨-, hserves, -⟩ := createTable_spec hinv hvirt hcreate
    rw [hcreate, if_neg habsent, if_neg habsent, halloc, if_neg hzero]
    have hclear : Access.valid paging.pageDirectory
        ⟨clearTable paging.mem table, paging.pageDirectory⟩ = true := by
      rw [access_valid_iff, clearTable_eq, translate_of_walk
        (hunused.walk_fillSlots hinv.directory.frame (Nat.le_refl _)
          hinv.directory.frame.2)]
      exact hidentity _ (.inl rfl)
    have hnew := translate_of_walk (hserves.walk table hunused.frame.2)
    simp only [List.all_append, List.all_cons, List.all_nil, hpd, hclear,
      clearAccesses_valid hinv.directory.frame hunused, Option.all_some,
      identityMapped, Bool.true_and, Bool.and_true]
    simp only [Access.valid, hnew, Bool.and_self]

omit hidentity in
theorem IsKernelFrame.isFrame {frame : Nat}
    (hkernel : IsKernelFrame paging frame) : IsFrame frame := by
  rcases hkernel with rfl | htable
  · exact hinv.directory.frame
  · exact htable.isFrame

omit hinv hidentity in
theorem IsFrame.pageFloor_eq {frame : Nat} (hframe : IsFrame frame) :
    pageFloor frame = frame := by
  have haligned := hframe.1
  simp only [pageFloor, pageSize] at haligned ⊢
  omega

omit hinv hidentity in
theorem pageFloor_isFrame {virt : Nat} (hvirt : virt < 2 ^ 32) :
    IsFrame (pageFloor virt) := by
  simp only [IsFrame, pageFloor, pageSize]
  omega

omit hinv hidentity in
theorem Rewrites.translate {virt : Nat} {entry : BitVec 32}
    {fresh : Option Nat} (hrewrites : Rewrites paging next virt entry fresh)
    {frame : Nat} (hframe : IsFrame frame) :
    translate next.mem paging.pageDirectory frame =
      if frame = pageFloor virt then
        if IsPresent entry then some (entryTable entry) else none
      else translate paging.mem paging.pageDirectory frame := by
  have haligned : frame % 2 ^ 12 = 0 := hframe.1
  have hwalk := hrewrites.walk frame hframe.2
  rw [hframe.pageFloor_eq] at hwalk
  unfold Orion.translate
  rw [hwalk]
  by_cases hpage : frame = pageFloor virt
  · rw [if_pos hpage, if_pos hpage]
    by_cases hpresent : IsPresent entry
    · rw [if_pos hpresent, if_pos hpresent, Option.map_some, haligned,
        Nat.add_zero]
    · rw [if_neg hpresent, if_neg hpresent, Option.map_none]
  · rw [if_neg hpage, if_neg hpage]

/-- A page that holds a directory or a table has to be mapped to itself when it
is mapped anew. -/
theorem Rewrites.kernelIdentity_iff {virt : Nat} {entry : BitVec 32}
    {fresh : Option Nat} (hrewrites : Rewrites paging next virt entry fresh)
    (hvirt : virt < 2 ^ 32)
    (hfresh : ∀ table, fresh = some table → table ≠ pageFloor virt ∧
      IsFrame table ∧
      Orion.translate paging.mem paging.pageDirectory table = some table) :
    KernelIdentity next ↔ (IsKernelFrame paging (pageFloor virt) →
      IsPresent entry ∧ entryTable entry = pageFloor virt) := by
  unfold KernelIdentity IsKernelFrame
  rw [hrewrites.pageDirectory]
  constructor
  · intro hnext hkernel
    have hself := hnext (pageFloor virt)
      (hkernel.imp_right fun h => (hrewrites.tables _).mpr (.inl h))
    rw [hrewrites.translate (pageFloor_isFrame hvirt), if_pos rfl] at hself
    by_cases hpresent : IsPresent entry
    · rw [if_pos hpresent] at hself
      exact ⟨hpresent, Option.some.inj hself⟩
    · rw [if_neg hpresent] at hself
      contradiction
  · intro hself frame hframe
    have hcases : IsKernelFrame paging frame ∨ fresh = some frame := by
      rcases hframe with hpd | htable
      · exact .inl (.inl hpd)
      · exact ((hrewrites.tables frame).mp htable).imp_left .inr
    rcases hcases with hold | hnew
    · rw [hrewrites.translate (hold.isFrame hinv)]
      by_cases hpage : frame = pageFloor virt
      · obtain ⟨hpresent, hentry⟩ := hself (hpage ▸ hold)
        rw [if_pos hpage, if_pos hpresent, hentry, hpage]
      · rw [if_neg hpage]
        exact hidentity frame hold
    · obtain ⟨hne, haligned, hmapped⟩ := hfresh frame hnew
      rw [hrewrites.translate haligned, if_neg hne]
      exact hmapped

omit hidentity in
/-- The new table is not the page that is mapped: it is mapped already. -/
theorem freshTable_identityMapped {virt table : Nat}
    (hfresh : freshTable paging virt = some table)
    (hmapped : identityMapped paging table = true) :
    table ≠ pageFloor virt ∧ IsFrame table ∧
      Orion.translate paging.mem paging.pageDirectory table = some table := by
  unfold freshTable at hfresh
  split_ifs at hfresh with hpresent
  have htranslate := access_valid_iff.mp hmapped
  have haligned : IsFrame table := by
    rcases halloc : pmmAllocFrame paging.pmm with ⟨frame, pmm⟩
    rw [halloc] at hfresh
    obtain rfl : frame = table := Option.some.inj hfresh
    by_cases hzero : frame = 0
    · rw [hzero]
      exact ⟨rfl, by decide⟩
    · exact ((hinv.alloc halloc).2 hzero).aligned
  refine ⟨fun heq => ?_, haligned, htranslate⟩
  have hpage : pageFloor table = pageFloor virt :=
    haligned.pageFloor_eq.trans heq
  unfold Orion.translate walk at htranslate
  dsimp only at htranslate
  rw [(pageFloor_eq_iff.mp hpage).1, if_neg hpresent] at htranslate
  contradiction

theorem mapKeepsIdentity_iff {virt phys : Nat} (hvirt : virt < 2 ^ 32)
    {flags : BitVec 32} (hmap : vmmMapPage paging virt phys flags = some next) :
    mapKeepsIdentity paging virt (pageEntry phys flags) = true ↔
      (vmmMapPageAccesses paging virt flags).all
        (Access.valid paging.pageDirectory) = true ∧ KernelIdentity next := by
  rw [mapKeepsIdentity, Bool.and_eq_true,
    vmmMapPageAccesses_valid hinv hidentity hvirt hmap]
  apply and_congr_right
  intro hnew
  have hfresh : ∀ table, freshTable paging virt = some table →
      table ≠ pageFloor virt ∧ IsFrame table ∧
      Orion.translate paging.mem paging.pageDirectory table = some table := by
    intro table htable
    rw [htable, Option.all_some] at hnew
    exact freshTable_identityMapped hinv htable hnew
  rw [(vmmMapPage_spec hinv hvirt hmap).2.kernelIdentity_iff hinv hidentity
    hvirt hfresh]
  simp only [isPresent_pageEntry, true_and, Bool.or_eq_true, beq_iff_eq,
    Bool.not_eq_true', decide_eq_false_iff_not]
  exact or_comm.trans imp_iff_not_or.symm

theorem vmmUnmapPage_identity_iff {virt : Nat} (hvirt : virt < 2 ^ 32) :
    KernelIdentity (vmmUnmapPage paging virt) ↔
      ¬ IsKernelFrame paging (pageFloor virt) := by
  rw [(vmmUnmapPage_spec hinv hvirt).2.kernelIdentity_iff hinv hidentity hvirt
    (fun _ h => by contradiction)]
  simp only [not_isPresent_zero, false_and, imp_false]

theorem KeepsMappings.kernelIdentity (hkeeps : KeepsMappings paging next) :
    KernelIdentity next := by
  intro frame hframe
  rw [IsKernelFrame, hkeeps.pageDirectory, hkeeps.tables] at hframe
  have haligned := IsKernelFrame.isFrame hinv hframe
  rw [hkeeps.pageDirectory, translate_of_walk (hkeeps.walk frame haligned.2)]
  exact hidentity frame hframe

/-- Creating an address space goes wrong at its new directory only. -/
theorem vmmCreateAddressSpaceAccesses_valid
    (hmaster : paging.kernelPdPhys = paging.pageDirectory) :
    (vmmCreateAddressSpaceAccesses paging).all
        (Access.valid paging.pageDirectory) = true ↔
      (pmmAllocFrame paging.pmm).1 = 0 ∨
        identityMapped paging (pmmAllocFrame paging.pmm).1 = true := by
  rcases halloc : pmmAllocFrame paging.pmm with ⟨frame, pmm⟩
  unfold vmmCreateAddressSpaceAccesses
  simp only [halloc, hmaster]
  by_cases hzero : frame = 0
  · rw [if_pos hzero]
    exact iff_of_true rfl (.inl hzero)
  · have hunused := ((hinv.alloc halloc).2 hzero).unused
    have hsame : ∀ other, other < 2 ^ 32 →
        Access.valid paging.pageDirectory ⟨clearTable paging.mem frame, other⟩ =
          Access.valid paging.pageDirectory ⟨paging.mem, other⟩ := by
      intro other hother
      unfold Access.valid
      dsimp only
      rw [clearTable_eq, translate_of_walk (hunused.walk_fillSlots
        hinv.directory.frame (Nat.le_refl _) hother)]
    have hpd := access_valid_iff.mpr (hidentity _ (.inl rfl))
    rw [if_neg hzero]
    simp only [List.all_append, List.all_cons, List.all_nil, Bool.and_true,
      clearAccesses_valid hinv.directory.frame hunused,
      hsame _ hinv.directory.frame.2, hsame _ hunused.frame.2, hpd,
      Bool.true_and, Bool.and_self, hzero, false_or, identityMapped]

end Accesses

/-- A page that is not mapped holds no table, so mapping it is safe once its
own table is. -/
theorem mapKeepsIdentity_of_unmapped {paging : Paging} {virt : Nat}
    (hidentity : KernelIdentity paging)
    (hfresh : (freshTable paging virt).all (identityMapped paging) = true)
    (hnone : Orion.translate paging.mem paging.pageDirectory (pageFloor virt) =
      none) (entry : BitVec 32) :
    mapKeepsIdentity paging virt entry = true := by
  have hfree : ¬ IsKernelFrame paging (pageFloor virt) := by
    intro hkernel
    rw [hidentity _ hkernel] at hnone
    contradiction
  rw [mapKeepsIdentity, hfresh, decide_eq_false hfree]
  simp only [Bool.not_false, Bool.or_true, Bool.and_self]

/-- The guard is exact: it holds for a call when the accesses of the call are
valid and the directory and its tables are identity mapped afterwards. -/
theorem VmmSystem.keepsIdentity_iff {sys next : VmmSystem} {call : VmmCall}
    (hinv : sys.Inv) (hidentity : KernelIdentity sys.paging)
    (hstep : sys.step call = some next) :
    sys.keepsIdentity call = true ↔
      (sys.accesses call).all (Access.valid sys.paging.pageDirectory) = true ∧
        KernelIdentity next.paging := by
  have hlookup := lookupAccesses_valid_iff.mpr hidentity
  cases call with
  | grow =>
      rcases halloc : pmmAllocFrame sys.paging.pmm with ⟨phys, pmm⟩
      simp only [step, grow, halloc] at hstep
      simp only [keepsIdentity, accesses, halloc]
      by_cases hceiling : heapMax < u32 (sys.heapVirtMapped + pageSize)
      · rw [if_pos hceiling] at hstep
        rw [if_pos hceiling, if_pos hceiling]
        exact iff_of_true rfl ⟨rfl, Option.some.inj hstep ▸ hidentity⟩
      · rw [if_neg hceiling] at hstep
        rw [if_neg hceiling, if_neg hceiling]
        by_cases hzero : phys = 0
        · rw [if_pos hzero] at hstep
          rw [if_pos hzero, if_pos hzero]
          exact iff_of_true rfl ⟨rfl, Option.some.inj hstep ▸ hidentity⟩
        · rw [if_neg hzero] at hstep
          rw [if_neg hzero, if_neg hzero]
          obtain ⟨paging, hmap, rfl⟩ := Option.map_eq_some_iff.mp hstep
          -- taking the frame for the page leaves the tables alone
          have hidentity' : KernelIdentity { sys.paging with pmm := pmm } :=
            hidentity
          exact mapKeepsIdentity_iff (hinv.tables.alloc halloc).1 hidentity'
            hinv.heap_lt hmap
  | mapPage virt phys flags =>
      obtain ⟨paging, hmap, rfl⟩ := Option.map_eq_some_iff.mp hstep
      exact mapKeepsIdentity_iff hinv.tables hidentity virt.toNat_lt hmap
  | unmapPage virt =>
      obtain rfl := Option.some.inj hstep
      simp only [keepsIdentity, accesses, hlookup virt, true_and,
        vmmUnmapPage_identity_iff hinv.tables hidentity virt.toNat_lt,
        Bool.not_eq_true', decide_eq_false_iff_not]
  | getPhys virt =>
      obtain rfl := Option.some.inj hstep
      exact iff_of_true rfl ⟨hlookup virt, hidentity⟩
  | isMapped virt =>
      obtain rfl := Option.some.inj hstep
      exact iff_of_true rfl ⟨hlookup virt, hidentity⟩
  | createAddressSpace =>
      obtain rfl := Option.some.inj hstep
      have hkeeps := (vmmCreateAddressSpace_spec hinv.tables hinv.master rfl).1
      have hnext := hkeeps.kernelIdentity hinv.tables hidentity
      simp only [keepsIdentity, accesses, hnext, and_true, Bool.or_eq_true,
        decide_eq_true_eq, vmmCreateAddressSpaceAccesses_valid hinv.tables
          hidentity hinv.master]
  | destroyAddressSpace space =>
      simp only [step] at hstep
      split_ifs at hstep with hspace
      obtain rfl := Option.some.inj hstep
      refine iff_of_true rfl ⟨rfl, ?_⟩
      dsimp only
      rw [vmmDestroyAddressSpace_eq hinv.tables hspace]
      exact hidentity

/-- After boot the pointers are good when both frames `vmm_init` took lie in
the identity region. -/
theorem Booted.kernelIdentity_iff {paging : Paging} (hbooted : Booted paging) :
    KernelIdentity paging ↔ paging.pageDirectory < 2 ^ 22 ∧
      entryTable (paging.mem (slotAddr paging.pageDirectory 0)) < 2 ^ 22 := by
  have hlow : ∀ frame, IsFrame frame →
      (Orion.translate paging.mem paging.pageDirectory frame = some frame ↔
        frame < 2 ^ 22) := by
    intro frame hframe
    rw [hbooted.translate frame hframe.2]
    by_cases h : frame < 2 ^ 22
    · rw [if_pos h]
      exact iff_of_true rfl h
    · rw [if_neg h]
      exact iff_of_false (by simp only [reduceCtorEq, not_false_eq_true]) h
  constructor
  · intro hidentity
    refine ⟨(hlow _ hbooted.tables.directory.frame).mp (hidentity _ (.inl rfl)),
      (hlow _ (entryTable_isFrame _)).mp (hidentity _ (.inr ?_))⟩
    exact (hbooted.table _).mpr rfl
  · rintro ⟨hpd, hpt0⟩ frame (rfl | htable)
    · exact (hlow _ hbooted.tables.directory.frame).mpr hpd
    · obtain rfl := (hbooted.table frame).mp htable
      exact (hlow _ (entryTable_isFrame _)).mpr hpt0

theorem VmmWatch.step_eq_some {watch next : VmmWatch} {call : VmmCall}
    (hstep : watch.step call = some next) :
    watch.sys.step call = some next.sys ∧
      next.sound = ((watch.sys.accesses call).all
        (Access.valid watch.sys.paging.pageDirectory) && watch.sound) := by
  obtain ⟨sys, hsys, rfl⟩ := Option.map_eq_some_iff.mp hstep
  exact ⟨hsys, rfl⟩

/-- The states from which the guard is exact. -/
structure VmmWatch.Inv (watch : VmmWatch) : Prop where
  sys : watch.sys.Inv
  sound : watch.sound = true
  identity : KernelIdentity watch.sys.paging

theorem VmmWatch.Inv.valid {watch : VmmWatch} (hinv : watch.Inv) :
    watch.Valid :=
  ⟨hinv.sound, lookupAccesses_valid_iff.mpr hinv.identity⟩

theorem VmmWatch.step_inv (watch : VmmWatch) (call : VmmCall)
    (next : VmmWatch) (hinv : watch.Inv)
    (hguard : watch.sys.keepsIdentity call = true)
    (hstep : watch.step call = some next) : next.Inv := by
  obtain ⟨hsys, hsound⟩ := step_eq_some hstep
  obtain ⟨hvalid, hidentity⟩ :=
    (VmmSystem.keepsIdentity_iff hinv.sys hinv.identity hsys).mp hguard
  refine ⟨VmmSystem.step_inv _ call _ hinv.sys hsys, ?_, hidentity⟩
  rw [hsound, hvalid, hinv.sound, Bool.and_self]

theorem VmmWatch.step_invalid (watch : VmmWatch) (call : VmmCall)
    (next : VmmWatch) (hinv : watch.Inv)
    (hguard : watch.sys.keepsIdentity call = false)
    (hstep : watch.step call = some next) : ¬ next.Valid := by
  obtain ⟨hsys, hsound⟩ := step_eq_some hstep
  rintro ⟨hnext, hlookup⟩
  rw [hsound, Bool.and_eq_true] at hnext
  have hkeeps := (VmmSystem.keepsIdentity_iff hinv.sys hinv.identity hsys).mpr
    ⟨hnext.1, lookupAccesses_valid_iff.mp hlookup⟩
  rw [hguard] at hkeeps
  contradiction

/-- Every pointer to physical memory that is dereferenced after paging is on
is identity mapped, in every state of a run, exactly when `vmm_init` took its
frames from the first 4 MB and every call of the run meets the guard. -/
theorem vmmAccesses_run_iff (mbi : MultibootInfo)
    (kernelPhysStart kernelPhysEnd : UInt32) (mem : PhysMem) (init : VmmSystem)
    (last : VmmWatch) (calls : List VmmCall)
    (hboot : VmmSystem.boot mbi kernelPhysStart kernelPhysEnd mem = some init)
    (hrun : Machine.exec VmmWatch.step ⟨init, true⟩ calls = some last) :
    (init.paging.pageDirectory < 2 ^ 22 ∧
      entryTable (init.paging.mem
        (slotAddr init.paging.pageDirectory 0)) < 2 ^ 22 ∧
      Machine.exec (Machine.guarded
        (fun watch call => watch.sys.keepsIdentity call) VmmWatch.step)
        ⟨init, true⟩ calls = some last) ↔
    ∀ past rest mid, calls = past ++ rest →
      Machine.exec VmmWatch.step ⟨init, true⟩ past = some mid → mid.Valid := by
  have hsys := VmmSystem.boot_inv hboot
  have hstart := (VmmSystem.boot_booted hboot).1.kernelIdentity_iff
  have hexact := fun hidentity => Machine.exec_guarded_iff
    (fun _ => VmmWatch.Inv.valid) VmmWatch.step_inv VmmWatch.step_invalid
    ⟨hsys, rfl, hidentity⟩ hrun
  rw [← and_assoc, ← hstart]
  constructor
  · rintro ⟨hidentity, hguarded⟩
    exact (hexact hidentity).mp hguarded
  · intro hvalid
    have hidentity := lookupAccesses_valid_iff.mp
      (hvalid [] calls ⟨init, true⟩ rfl rfl).2
    exact ⟨hidentity, (hexact hidentity).mpr hvalid⟩

namespace VmmIdentityWitness

/-- Boot on cleared memory of 128 KB at `base`. -/
def boot (base : UInt64) : Option VmmSystem :=
  VmmSystem.boot ⟨0x40, 0, [⟨base, 0x20000, 1⟩]⟩ 0x100000 0x108000 fun _ => 0#32

/-- The calls by which `kheap_init` maps the first 64 KB of the heap. -/
def started : List VmmCall := List.replicate 17 .grow

theorem high_space :
    ((boot 0x3EC000).bind fun init => Machine.exec VmmWatch.step ⟨init, true⟩
      (started ++ [.createAddressSpace])).map (fun mid =>
        (mid.sys.spaces, mid.sound)) = some ([0x400000], false) := by
  decide +kernel

/-- With memory that ends above 4 MB, the directory of an address space lies
outside the identity region and is zeroed through an unmapped pointer. -/
theorem space_above_identity :
    ∃ init mid, boot 0x3EC000 = some init ∧
      Machine.exec VmmWatch.step ⟨init, true⟩
        (started ++ [.createAddressSpace]) = some mid ∧ ¬ mid.Valid := by
  obtain ⟨mid, hrun, heq⟩ := Option.map_eq_some_iff.mp high_space
  obtain ⟨init, hboot, hexec⟩ := Option.bind_eq_some_iff.mp hrun
  refine ⟨init, mid, hboot, hexec, fun hvalid => ?_⟩
  exact Bool.false_ne_true ((Prod.mk.inj heq).2.symm.trans hvalid.1)

/-- Boot takes two frames below 4 MB, the first page of the heap a third and
its table a fourth. -/
theorem low_boot :
    ((boot 0x110000).any fun init =>
      let paging := { init.paging with pmm := (pmmAllocFrame init.paging.pmm).2 }
      decide (init.paging.pageDirectory < 2 ^ 22) &&
      decide (entryTable (init.paging.mem
        (slotAddr init.paging.pageDirectory 0)) < 2 ^ 22) &&
      init.heapVirtMapped == heapStart &&
      (freshTable paging heapStart).all (identityMapped paging) &&
      translate paging.mem paging.pageDirectory heapStart == none &&
      (init.step .grow).any fun next =>
        next.keepsIdentity .createAddressSpace &&
        (next.step .createAddressSpace).isSome) = true := by
  decide +kernel

/-- On such a machine the heap grows and an address space is made, with good
pointers throughout. -/
theorem low_memory_valid :
    ∃ init last, boot 0x110000 = some init ∧
      Machine.exec VmmWatch.step ⟨init, true⟩ [.grow, .createAddressSpace] =
        some last ∧
      ∀ past rest mid, [.grow, .createAddressSpace] = past ++ rest →
        Machine.exec VmmWatch.step ⟨init, true⟩ past = some mid →
        mid.Valid := by
  obtain ⟨init, hboot, hfacts⟩ := (Option.any_eq_true _ _).mp low_boot
  simp only [Bool.and_eq_true, decide_eq_true_eq, beq_iff_eq] at hfacts
  obtain ⟨⟨⟨⟨⟨hpd, hpt0⟩, hheap⟩, hfresh⟩, hnone⟩, hgrow⟩ := hfacts
  obtain ⟨next, hnext, hspace⟩ := (Option.any_eq_true _ _).mp hgrow
  simp only [Bool.and_eq_true, Option.isSome_iff_exists] at hspace
  obtain ⟨hguard, last, hlast⟩ := hspace
  have hidentity : KernelIdentity init.paging :=
    (VmmSystem.boot_booted hboot).1.kernelIdentity_iff.mpr ⟨hpd, hpt0⟩
  have hfirst : init.keepsIdentity .grow = true := by
    simp only [VmmSystem.keepsIdentity, hheap]
    rw [if_neg (by decide)]
    split
    · rfl
    · refine mapKeepsIdentity_of_unmapped ?_ hfresh hnone _
      exact hidentity
  have hstep : ∀ {sys sys' : VmmSystem} {call : VmmCall} {sound : Bool},
      sys.step call = some sys' → ∃ sound',
        VmmWatch.step ⟨sys, sound⟩ call = some ⟨sys', sound'⟩ := by
    intro sys sys' call sound hsys
    exact ⟨_, congrArg (Option.map _) hsys⟩
  obtain ⟨sound, hwatch⟩ := @hstep _ _ _ true hnext
  obtain ⟨sound', hwatch'⟩ := @hstep _ _ _ sound hlast
  have hrun : Machine.exec VmmWatch.step ⟨init, true⟩
      [.grow, .createAddressSpace] = some ⟨last, sound'⟩ :=
    (Machine.exec_cons_eq_some _).mpr ⟨_, hwatch,
      (Machine.exec_cons_eq_some _).mpr ⟨_, hwatch', rfl⟩⟩
  refine ⟨init, ⟨last, sound'⟩, hboot, hrun, ?_⟩
  apply (vmmAccesses_run_iff _ _ _ _ _ _ _ hboot hrun).mp
  exact ⟨hpd, hpt0, (Machine.exec_cons_eq_some _).mpr ⟨_,
    Machine.guarded_eq_some.mpr ⟨hfirst, hwatch⟩,
    (Machine.exec_cons_eq_some _).mpr ⟨_,
      Machine.guarded_eq_some.mpr ⟨hguard, hwatch'⟩, rfl⟩⟩⟩

end VmmIdentityWitness

end Orion
