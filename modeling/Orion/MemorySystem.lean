/-
The memory managers as the rest of the kernel uses them: the heap with its
clients, the kernel's page tables, and frames that are taken, written to and
given back.  The frames of the page tables stay apart from those that others
hold.
-/
import Orion.AddressSpaces
import Orion.KheapInvariant
import Orion.KheapMapping

namespace Orion

open MachineInt ByteMem BoundaryTag

/-- The heap and its clients, and the frames held by other parts of the
kernel: directories and tables of processes, and their pages. -/
structure MemorySystem where
  heap : HeapSystem
  frames : List Nat

inductive MemoryCall where
  | heap (call : HeapCall)
  | mapPage (virt phys : UInt32) (flags : BitVec 32)
  | unmapPage (virt : UInt32)
  | allocFrame
  | freeFrame (physAddr : UInt32)
  /-- a word of a frame that somebody holds -/
  | writeFrame (frame i : Nat) (word : BitVec 32)

def MemorySystem.paging (sys : MemorySystem) : Paging := sys.heap.heap.paging

def MemorySystem.setPaging (sys : MemorySystem) (paging : Paging) :
    MemorySystem :=
  { sys with heap := { sys.heap with
    heap := { sys.heap.heap with paging := paging } } }

/-- One call; `none` is a panic, or a frame that nobody holds. -/
def MemorySystem.step (sys : MemorySystem) : MemoryCall → Option MemorySystem
  | .heap (.repage _) => none
  | .heap call =>
      (sys.heap.serve call).map fun heap => { sys with heap := heap }
  | .mapPage virt phys flags =>
      (vmmMapPage sys.paging virt.toNat phys.toNat flags).map sys.setPaging
  | .unmapPage virt =>
      some (sys.setPaging (vmmUnmapPage sys.paging virt.toNat))
  | .allocFrame =>
      let (phys, pmm) := pmmAllocFrame sys.paging.pmm
      some { sys.setPaging { sys.paging with pmm := pmm } with
        frames := if phys = 0 then sys.frames
          else addrToFrame phys :: sys.frames }
  | .freeFrame physAddr =>
      if addrToFrame physAddr.toNat ∈ sys.frames then
        some { sys.setPaging { sys.paging with
            pmm := pmmFreeFrame sys.paging.pmm physAddr } with
          frames := sys.frames.filter fun frame =>
            frame ≠ addrToFrame physAddr.toNat }
      else none
  | .writeFrame frame i word =>
      if frame ∈ sys.frames ∧ i < 1024 then
        some (sys.setPaging { sys.paging with
          mem := Function.update sys.paging.mem
            (slotAddr (frame * pageSize) i) word })
      else none

/-- No sum that a request computes wraps. -/
def MemorySystem.fits (sys : MemorySystem) : MemoryCall → Bool
  | .heap call => sys.heap.fits call
  | _ => true

/-- The state after `pmm_init`, `vmm_init` and `kheap_init`; `none` is a panic
of one of them. -/
def MemorySystem.boot (mbi : MultibootInfo)
    (kernelPhysStart kernelPhysEnd : UInt32) (mem : PhysMem) (bytes : Mem) :
    Option MemorySystem :=
  (VmmSystem.boot mbi kernelPhysStart kernelPhysEnd mem).bind fun sys =>
    (kheapInit ⟨bytes, 0, 0, 0, sys.paging⟩).toOption.map
      fun heap => ⟨⟨heap, []⟩, []⟩

/-- The page tables, the search of the frame allocator, and the frames that
others hold. -/
structure FramesInv (paging : Paging) (frames : List Nat) : Prop where
  tables : PagingInv paging.pmm paging.mem paging.pageDirectory []
  master : paging.kernelPdPhys = paging.pageDirectory
  searchable : Searchable paging.pmm
  idle : paging.pmm.totalFrames = 0 → frames = []
  nonzero : ∀ frame ∈ frames, frame ≠ 0
  used : ∀ frame ∈ frames, bitmapTest paging.pmm frame = true
  apart : ∀ frame ∈ frames,
    ¬ Held paging.mem paging.pageDirectory [] (frame * pageSize)

section Frames

variable {paging next : Paging} {frames : List Nat}

theorem pmmAllocFrame_totalFrames (pmm : Pmm) :
    (pmmAllocFrame pmm).2.totalFrames = pmm.totalFrames := by
  unfold pmmAllocFrame
  split
  · rfl
  · split
    · rfl
    · split <;> rfl

/-- Taking a frame, for oneself or for somebody who holds it. -/
theorem FramesInv.alloc (hinv : FramesInv paging frames) {phys : Nat}
    {pmm : Pmm} (halloc : pmmAllocFrame paging.pmm = (phys, pmm)) :
    FramesInv { paging with pmm := pmm } frames ∧
      (phys ≠ 0 →
        FramesInv { paging with pmm := pmm } (addrToFrame phys :: frames)) := by
  obtain ⟨htables, hfresh⟩ := hinv.tables.alloc halloc
  have hready : Searchable pmm := by
    have hready := pmmAllocFrame_searchable hinv.searchable
    rwa [halloc] at hready
  have hallocates := pmmAllocFrame_allocates hinv.tables.searchPos
    hinv.tables.searchLe halloc
  have htotal : pmm.totalFrames = paging.pmm.totalFrames := by
    have h := pmmAllocFrame_totalFrames paging.pmm
    rwa [halloc] at h
  have hold : FramesInv { paging with pmm := pmm } frames :=
    ⟨htables, hinv.master, hready, fun hzero => hinv.idle (htotal ▸ hzero),
      hinv.nonzero,
      fun frame hframe => hallocates.keeps frame (hinv.used frame hframe),
      hinv.apart⟩
  refine ⟨hold, fun hne => ?_⟩
  obtain ⟨hframe, hclear, hused⟩ := hallocates.takes hne
  have haddr : addrToFrame phys * pageSize = phys := by
    have haligned := hframe.1
    simp only [addrToFrame, pageSize] at haligned ⊢
    omega
  refine ⟨htables, hinv.master, hready, fun hzero => ?_, ?_, ?_, ?_⟩
  · have hfull := hinv.searchable.idle (htotal ▸ hzero) (addrToFrame phys) (by
      have hlt := hframe.2
      simp only [addrToFrame, pmmMaxFrames, pageSize]
      omega)
    rw [hclear] at hfull
    contradiction
  · refine List.forall_mem_cons.mpr ⟨fun hzero => ?_, hold.nonzero⟩
    rw [hzero, Nat.zero_mul] at haddr
    exact hne haddr.symm
  · exact List.forall_mem_cons.mpr ⟨hused, hold.used⟩
  · refine List.forall_mem_cons.mpr ⟨?_, hold.apart⟩
    rw [haddr]
    exact (hfresh hne).notHeld

theorem vmmMapPage_totalFrames {virt phys : Nat} {flags : BitVec 32}
    (hmap : vmmMapPage paging virt phys flags = some next) :
    next.pmm.totalFrames = paging.pmm.totalFrames := by
  rcases vmmMapPage_pmm hmap with hsame | ⟨table, halloc⟩
  · rw [hsame]
  · have htotal := pmmAllocFrame_totalFrames paging.pmm
    rwa [halloc] at htotal

/-- A new table of the kernel lies in a frame that nobody held. -/
theorem FramesInv.map (hinv : FramesInv paging frames) {virt phys : Nat}
    (hvirt : virt < 2 ^ 32) {flags : BitVec 32}
    (hmap : vmmMapPage paging virt phys flags = some next) :
    FramesInv next frames := by
  obtain ⟨htables, hrewrites⟩ := vmmMapPage_spec hinv.tables hvirt hmap
  have hpd := hrewrites.pageDirectory
  refine ⟨htables, ?_, ?_, ?_, hinv.nonzero, ?_, ?_⟩
  · rw [hrewrites.kernelPdPhys, hpd]
    exact hinv.master
  · rcases vmmMapPage_counts hinv.searchable hvirt phys flags with
      ⟨hnone, -⟩ | ⟨_, hsome, hready, -⟩
    · rw [hmap] at hnone
      contradiction
    · exact Option.some.inj (hsome.symm.trans hmap) ▸ hready
  · intro hzero
    rw [vmmMapPage_totalFrames hmap] at hzero
    exact hinv.idle hzero
  · exact fun frame hframe => vmmMapPage_used hinv.tables hmap
      (hinv.used frame hframe)
  · rintro frame hframe (heq | htable | hspace)
    · exact hinv.apart frame hframe (.inl (heq.trans hpd))
    · rw [hpd, hrewrites.tables] at htable
      rcases htable with htable | hfresh
      · exact hinv.apart frame hframe (.inr (.inl htable))
      · -- the frame of a new table was clear, a held one is not
        unfold freshTable at hfresh
        split at hfresh
        · contradiction
        · rw [Option.some.injEq] at hfresh
          have hallocates := pmmAllocFrame_allocates hinv.tables.searchPos
            hinv.tables.searchLe (Prod.mk.eta (p := pmmAllocFrame paging.pmm)).symm
          have hne : (pmmAllocFrame paging.pmm).1 ≠ 0 := by
            rw [hfresh]
            exact Nat.mul_ne_zero (hinv.nonzero frame hframe) (by decide)
          have hclear := (hallocates.takes hne).2.1
          rw [hfresh, addrToFrame_mul, hinv.used frame hframe] at hclear
          contradiction
    · contradiction

/-- Unmapping writes into a table of the kernel. -/
theorem FramesInv.unmap (hinv : FramesInv paging frames) {virt : Nat}
    (hvirt : virt < 2 ^ 32) : FramesInv (vmmUnmapPage paging virt) frames := by
  obtain ⟨htables, hrewrites⟩ := vmmUnmapPage_spec hinv.tables hvirt
  have hpmm : (vmmUnmapPage paging virt).pmm = paging.pmm := by
    simp only [vmmUnmapPage]
    split <;> rfl
  have hpd := hrewrites.pageDirectory
  have hmaster : (vmmUnmapPage paging virt).kernelPdPhys =
      (vmmUnmapPage paging virt).pageDirectory := by
    rw [hrewrites.kernelPdPhys, hpd]
    exact hinv.master
  refine ⟨htables, hmaster, hpmm ▸ hinv.searchable, hpmm ▸ hinv.idle,
    hinv.nonzero, hpmm ▸ hinv.used, ?_⟩
  rintro frame hframe (heq | htable | hspace)
  · exact hinv.apart frame hframe (.inl (heq.trans hpd))
  · rw [hpd, hrewrites.tables] at htable
    rcases htable with htable | hnone
    · exact hinv.apart frame hframe (.inr (.inl htable))
    · contradiction
  · contradiction

/-- A frame that is given back holds no table. -/
theorem FramesInv.free (hinv : FramesInv paging frames) {physAddr : UInt32}
    (hheld : addrToFrame physAddr.toNat ∈ frames) :
    FramesInv { paging with pmm := pmmFreeFrame paging.pmm physAddr }
      (frames.filter fun frame => frame ≠ addrToFrame physAddr.toNat) := by
  have htotal : paging.pmm.totalFrames ≠ 0 := by
    intro hzero
    rw [hinv.idle hzero] at hheld
    contradiction
  have hready := pmmFreeFrame_searchable hinv.searchable physAddr htotal
  have hother : ∀ frame, frame ≠ addrToFrame physAddr.toNat →
      bitmapTest paging.pmm frame = true →
        bitmapTest (pmmFreeFrame paging.pmm physAddr) frame = true := by
    intro frame hne hused
    rw [bitmapTest_pmmFreeFrame hne]
    exact hused
  refine ⟨⟨hready.search_pos, Nat.le_of_lt hready.search_lt,
    hinv.tables.directory, hinv.tables.first, ?_, by simp, by simp, by simp⟩,
    hinv.master, hready, ?_, ?_, ?_, ?_⟩
  · intro frame htable
    apply hother _ _ (hinv.tables.used frame htable)
    intro heq
    have hframe : IsFrame frame := by
      rcases htable with rfl | htable | hspace
      · exact hinv.tables.directory.frame
      · exact htable.isFrame
      · contradiction
    apply hinv.apart _ hheld
    have haddr : addrToFrame frame * pageSize = frame := by
      have haligned := hframe.1
      simp only [addrToFrame, pageSize] at haligned ⊢
      omega
    rw [← heq, haddr]
    exact htable
  · intro hzero
    rw [pmmFreeFrame_totalFrames] at hzero
    exact absurd hzero htotal
  · exact fun frame hframe => hinv.nonzero frame (List.mem_of_mem_filter hframe)
  · intro frame hframe
    obtain ⟨hframe, hne⟩ := List.mem_filter.mp hframe
    exact hother frame (of_decide_eq_true hne) (hinv.used frame hframe)
  · exact fun frame hframe => hinv.apart frame (List.mem_of_mem_filter hframe)

theorem pmmMaxFrames_isFrame {frame : Nat} (hframe : frame < pmmMaxFrames) :
    IsFrame (frame * pageSize) := by
  simp only [IsFrame, pmmMaxFrames, pageSize] at *
  omega

/-- What is written into a held frame is not seen by the kernel's tables. -/
theorem FramesInv.write (hinv : FramesInv paging frames) {frame i : Nat}
    (hheld : frame ∈ frames) (hframe : frame < pmmMaxFrames) (hi : i < 1024)
    (word : BitVec 32) :
    FramesInv { paging with
      mem := Function.update paging.mem (slotAddr (frame * pageSize) i) word }
      frames := by
  have hslots : ∀ j < 1024, Function.update paging.mem
      (slotAddr (frame * pageSize) i) word (slotAddr paging.pageDirectory j) =
        paging.mem (slotAddr paging.pageDirectory j) := by
    intro j hj
    apply update_table_of_ne (pmmMaxFrames_isFrame hframe)
      hinv.tables.directory.frame _ hj hi
    exact fun heq => hinv.apart frame hheld (.inl heq.symm)
  refine ⟨hinv.tables.of_slots hslots (by simp), hinv.master, hinv.searchable,
    hinv.idle, hinv.nonzero, hinv.used, ?_⟩
  intro other hother hheld'
  exact hinv.apart other hother
    (hheld'.imp_right fun h => h.imp_left (isTable_congr hslots).mp)

end Frames

/-- A round of heap growth keeps the frames of the others. -/
theorem FramesInv.grow {sys next : VmmSystem} {frames : List Nat}
    (hinv : FramesInv sys.paging frames) (hceiling : sys.heapVirtMapped ≤ heapMax)
    (hgrow : sys.grow = some next) :
    FramesInv next.paging frames ∧ next.heapVirtMapped ≤ heapMax := by
  rcases VmmSystem.grow_cases hgrow with
    rfl | ⟨phys, pmm, halloc, hroom, ⟨_, rfl⟩ | ⟨_, paging, hmap, rfl⟩⟩
  · exact ⟨hinv, hceiling⟩
  · exact ⟨(hinv.alloc halloc).1, hceiling⟩
  · refine ⟨(hinv.alloc halloc).1.map ?_ hmap, hroom⟩
    simp only [heapMax] at hceiling
    omega

theorem FramesInv.grows {sys next : VmmSystem} {frames : List Nat}
    (hinv : FramesInv sys.paging frames) (hceiling : sys.heapVirtMapped ≤ heapMax)
    (hgrows : sys.Grows next) :
    FramesInv next.paging frames ∧ next.heapVirtMapped ≤ heapMax := by
  obtain ⟨n, hrun⟩ := hgrows
  induction n generalizing sys with
  | zero =>
      obtain rfl := Option.some.inj hrun
      exact ⟨hinv, hceiling⟩
  | succ n ih =>
      obtain ⟨mid, hgrow, hrest⟩ := (Machine.exec_cons_eq_some _).mp hrun
      obtain ⟨hmid, hmidCeiling⟩ := hinv.grow hceiling hgrow
      exact ih hmid hmidCeiling hrest

theorem storeBackPointer_vmmSystem (result : Nat × Kheap) (spaces : List Nat) :
    (storeBackPointer result).2.vmmSystem spaces =
      result.2.vmmSystem spaces := by
  unfold storeBackPointer
  split <;> rfl

theorem kfree_vmmSystem (heap : Kheap) (ptr : Nat) (spaces : List Nat) :
    (kfree heap ptr).vmmSystem spaces = heap.vmmSystem spaces := by
  unfold kfree
  split <;> rfl

/-- The heap touches the memory managers by growing only. -/
theorem HeapSystem.serve_grows {sys next : HeapSystem} {call : HeapCall}
    (hcall : ∀ paging, call ≠ .repage paging) (spaces : List Nat)
    (hstep : sys.serve call = some next) :
    (sys.heap.vmmSystem spaces).Grows (next.heap.vmmSystem spaces) := by
  cases call with
  | kmalloc size =>
      obtain ⟨⟨p, heap⟩, hresult, rfl⟩ := Option.map_eq_some_iff.mp hstep
      exact kmalloc_grows spaces (toOption_eq_some hresult)
  | kmallocAligned size =>
      simp only [HeapSystem.serve] at hstep
      obtain ⟨result, hresult, rfl⟩ := Option.map_eq_some_iff.mp hstep
      have hresult := toOption_eq_some hresult
      unfold kmallocAligned at hresult
      cases hraw : kmalloc sys.heap (u32 (size + pageSize + 4)) with
      | error halt =>
          rw [hraw] at hresult
          cases hresult
      | ok raw =>
          rw [hraw, Except.map, Except.ok.injEq] at hresult
          subst hresult
          have hsame := storeBackPointer_vmmSystem raw spaces
          simp only [HeapSystem.record]
          rw [hsame]
          exact kmalloc_grows spaces hraw
  | kfree ptr =>
      obtain ⟨entry, -, rfl⟩ := Option.map_eq_some_iff.mp hstep
      dsimp only
      rw [kfree_vmmSystem]
      exact .refl _
  | kfreeAligned ptr =>
      obtain ⟨entry, -, rfl⟩ := Option.map_eq_some_iff.mp hstep
      dsimp only [kfreeAligned]
      split
      · exact .refl _
      · rw [kfree_vmmSystem]
        exact .refl _
  | store addr value =>
      simp only [HeapSystem.serve, HeapSystem.step] at hstep
      split_ifs at hstep
      cases hstep
      exact .refl _
  | repage paging => exact absurd rfl (hcall paging)

/-- The heap is well formed over page tables that nobody else writes. -/
structure MemorySystem.Inv (sys : MemorySystem) : Prop where
  heap : ∃ blocks, HeapInv sys.heap blocks
  frames : FramesInv sys.paging sys.frames
  bounded : ∀ frame ∈ sys.frames, frame < pmmMaxFrames

theorem MemorySystem.Inv.mappable {sys : MemorySystem} (hinv : sys.Inv) :
    Mappable sys.heap.heap := by
  obtain ⟨blocks, hheap⟩ := hinv.heap
  exact ⟨hinv.frames.tables, hinv.frames.searchable, hheap.shape.ceiling⟩

/-- Whatever the paging, the blocks of the heap are the same. -/
theorem HeapInv.repaged {sys : HeapSystem} {blocks : List Block}
    (hinv : HeapInv sys blocks) (paging : Paging) :
    HeapInv { sys with heap := { sys.heap with paging := paging } } blocks :=
  (hinv.remap (hinv.shape.remap paging (Nat.le_refl _) hinv.shape.ceiling)).1

theorem MemorySystem.Inv.repaged {sys : MemorySystem} (hinv : sys.Inv)
    {paging : Paging} {frames : List Nat} (hframes : FramesInv paging frames)
    (hbounded : ∀ frame ∈ frames, frame < pmmMaxFrames) :
    MemorySystem.Inv { sys.setPaging paging with frames := frames } := by
  obtain ⟨blocks, hheap⟩ := hinv.heap
  exact ⟨⟨blocks, hheap.repaged paging⟩, hframes, hbounded⟩

theorem MemorySystem.step_inv {sys next : MemorySystem} {call : MemoryCall}
    (hinv : sys.Inv)
    (hstep : Machine.guarded MemorySystem.fits MemorySystem.step sys call =
      some next) : next.Inv := by
  obtain ⟨hfits, hstep⟩ := Machine.guarded_eq_some.mp hstep
  have hframes := hinv.frames
  cases call with
  | heap call =>
      by_cases hcall : ∃ paging, call = .repage paging
      · obtain ⟨paging, rfl⟩ := hcall
        cases hstep
      · have hmap : (sys.heap.serve call).map
            (fun heap => { sys with heap := heap }) = some next := by
          cases call <;> first | exact hstep | simp at hcall
        obtain ⟨heap, hserve, rfl⟩ := Option.map_eq_some_iff.mp hmap
        obtain ⟨blocks, hheap⟩ := hinv.heap
        obtain ⟨blocks', hheap', -⟩ := heap_serve_inv hheap hfits hserve
        have hgrows := HeapSystem.serve_grows
          (fun paging heq => hcall ⟨paging, heq⟩) [] hserve
        exact ⟨⟨blocks', hheap'⟩,
          (hframes.grows hheap.shape.ceiling hgrows).1, hinv.bounded⟩
  | mapPage virt phys flags =>
      obtain ⟨paging, hmap, rfl⟩ := Option.map_eq_some_iff.mp hstep
      exact hinv.repaged (hframes.map virt.toNat_lt hmap) hinv.bounded
  | unmapPage virt =>
      obtain rfl := Option.some.inj hstep
      exact hinv.repaged (hframes.unmap virt.toNat_lt) hinv.bounded
  | allocFrame =>
      rcases halloc : pmmAllocFrame sys.paging.pmm with ⟨phys, pmm⟩
      simp only [MemorySystem.step, halloc, Option.some.injEq] at hstep
      subst hstep
      obtain ⟨hold, hnew⟩ := hframes.alloc halloc
      by_cases hzero : phys = 0
      · simp only [hzero, ↓reduceIte]
        exact hinv.repaged hold hinv.bounded
      · simp only [hzero, ↓reduceIte]
        have hframe := ((pmmAllocFrame_allocates hframes.tables.searchPos
          hframes.tables.searchLe halloc).takes hzero).1.2
        refine hinv.repaged (hnew hzero)
          (List.forall_mem_cons.mpr ⟨?_, hinv.bounded⟩)
        simp only [addrToFrame, pmmMaxFrames, pageSize]
        omega
  | freeFrame physAddr =>
      simp only [MemorySystem.step] at hstep
      split_ifs at hstep with hheld
      obtain rfl := Option.some.inj hstep
      exact hinv.repaged (hframes.free hheld)
        fun frame hframe => hinv.bounded frame (List.mem_of_mem_filter hframe)
  | writeFrame frame i word =>
      simp only [MemorySystem.step] at hstep
      split_ifs at hstep with hheld
      obtain rfl := Option.some.inj hstep
      exact hinv.repaged (hframes.write hheld.1 (hinv.bounded frame hheld.1)
        hheld.2 word) hinv.bounded

theorem vmmInit_pmm {paging next : Paging} (hinit : vmmInit paging = some next) :
    next.pmm = (pmmAllocFrame (pmmAllocFrame paging.pmm).2).2 := by
  unfold vmmInit at hinit
  dsimp only at hinit
  split_ifs at hinit
  rw [← Option.some.inj hinit]

/-- At boot nobody holds a frame yet. -/
theorem VmmSystem.boot_framesInv {mbi : MultibootInfo}
    {kernelPhysStart kernelPhysEnd : UInt32} {mem : PhysMem} {sys : VmmSystem}
    (hboot : VmmSystem.boot mbi kernelPhysStart kernelPhysEnd mem = some sys) :
    FramesInv sys.paging [] := by
  have hbooted := (VmmSystem.boot_booted hboot).1
  obtain ⟨paging, hinit, rfl⟩ := Option.map_eq_some_iff.mp hboot
  have hready := pmmAllocFrame_searchable (pmmAllocFrame_searchable
    (pmmInit_searchable mbi kernelPhysStart kernelPhysEnd))
  rw [← vmmInit_pmm hinit] at hready
  exact ⟨hbooted.tables, hbooted.master, hready, fun _ => rfl, by simp,
    by simp, by simp⟩

theorem MemorySystem.boot_inv {mbi : MultibootInfo}
    {kernelPhysStart kernelPhysEnd : UInt32} {mem : PhysMem} {bytes : Mem}
    {sys : MemorySystem}
    (hboot : MemorySystem.boot mbi kernelPhysStart kernelPhysEnd mem bytes =
      some sys) : sys.Inv := by
  obtain ⟨vmm, hvmm, hheap⟩ := Option.bind_eq_some_iff.mp hboot
  obtain ⟨heap, hinit, rfl⟩ := Option.map_eq_some_iff.mp hheap
  have hinit := toOption_eq_some hinit
  have hframes := VmmSystem.boot_framesInv hvmm
  have hgrows := @FramesInv.grows ⟨vmm.paging, heapStart, []⟩ _ [] hframes
    (by show heapStart ≤ heapMax; decide) (kheapInit_grows [] hinit)
  exact ⟨kheapInit_inv hinit, hgrows.1, by simp⟩

/-- Whatever was asked of the memory managers since boot, the next request to
the heap finds them in order. -/
theorem MemorySystem.run_inv {mbi : MultibootInfo}
    {kernelPhysStart kernelPhysEnd : UInt32} {mem : PhysMem} {bytes : Mem}
    {start sys : MemorySystem} {calls : List MemoryCall}
    (hboot : MemorySystem.boot mbi kernelPhysStart kernelPhysEnd mem bytes =
      some start)
    (hrun : Machine.exec
      (Machine.guarded MemorySystem.fits MemorySystem.step) start calls =
        some sys) : sys.Inv :=
  Machine.exec_invariant (fun _ _ _ hinv hstep => MemorySystem.step_inv hinv hstep)
    (MemorySystem.boot_inv hboot) hrun

end Orion
