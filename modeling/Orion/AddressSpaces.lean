/-
Kernel mappings in the address spaces.  A new directory gets the kernel's
first entry and nothing else, so it follows the identity region for ever and
never has a page of the heap.
-/
import Orion.KheapOps
import Orion.VmmSystem

namespace Orion

open MachineInt

section Heap

/-- The memory managers under a heap. -/
def Kheap.vmmSystem (heap : Kheap) (spaces : List Nat) : VmmSystem :=
  ⟨heap.paging, heap.heapVirtMapped, spaces⟩

/-- The second state is reached by rounds of heap growth. -/
def VmmSystem.Grows (sys next : VmmSystem) : Prop :=
  ∃ n, Machine.exec VmmSystem.step sys (List.replicate n .grow) = some next

variable {heap heap' : Kheap} (spaces : List Nat)

theorem VmmSystem.Grows.refl (sys : VmmSystem) : sys.Grows sys := ⟨0, rfl⟩

theorem VmmSystem.Grows.cons {sys mid next : VmmSystem}
    (hgrow : sys.grow = some mid) (hgrows : mid.Grows next) :
    sys.Grows next := by
  obtain ⟨n, hrun⟩ := hgrows
  exact ⟨n + 1, (Machine.exec_cons_eq_some _).mpr ⟨mid, hgrow, hrun⟩⟩

theorem ensureMappedLoop_grows {stop budget : Nat} {mapped : Bool}
    (hloop : ensureMappedLoop stop budget heap = .ok (mapped, heap')) :
    (heap.vmmSystem spaces).Grows (heap'.vmmSystem spaces) := by
  induction budget generalizing heap with
  | zero => contradiction
  | succ budget ih =>
      unfold ensureMappedLoop at hloop
      by_cases hstop : heap.heapVirtMapped < stop
      · rw [if_pos hstop] at hloop
        by_cases hceiling : heapMax < u32 (heap.heapVirtMapped + pageSize)
        · rw [if_pos hceiling] at hloop
          obtain ⟨-, rfl⟩ := Prod.mk.inj (Except.ok.inj hloop)
          exact .refl _
        · rw [if_neg hceiling] at hloop
          dsimp only at hloop
          by_cases hzero : (pmmAllocFrame heap.paging.pmm).1 = 0
          · rw [if_pos hzero] at hloop
            obtain ⟨-, rfl⟩ := Prod.mk.inj (Except.ok.inj hloop)
            refine .cons ?_ (.refl _)
            unfold VmmSystem.grow Kheap.vmmSystem
            dsimp only
            rw [if_neg hceiling, if_pos hzero]
          · rw [if_neg hzero] at hloop
            rcases hmap : vmmMapPage
                { heap.paging with pmm := (pmmAllocFrame heap.paging.pmm).2 }
                heap.heapVirtMapped (pmmAllocFrame heap.paging.pmm).1
                vmmKernelRw with _ | paging
            · rw [hmap] at hloop
              contradiction
            · rw [hmap] at hloop
              refine .cons ?_ (ih hloop)
              unfold VmmSystem.grow Kheap.vmmSystem
              dsimp only
              rw [if_neg hceiling, if_neg hzero, hmap]
              rfl
      · rw [if_neg hstop] at hloop
        obtain ⟨-, rfl⟩ := Prod.mk.inj (Except.ok.inj hloop)
        exact .refl _

theorem extendHeap_grows {size bp : Nat}
    (hextend : extendHeap heap size = .ok (bp, heap')) :
    (heap.vmmSystem spaces).Grows (heap'.vmmSystem spaces) := by
  unfold extendHeap ensureMapped at hextend
  rcases hloop : ensureMappedLoop (u32 (heap.heapBrk + size + wsize))
      (heapMax / pageSize + 2) heap with halt | ⟨mapped, mid⟩
  · rw [hloop] at hextend
    contradiction
  · rw [hloop] at hextend
    have hgrows := ensureMappedLoop_grows spaces hloop
    cases mapped with
    | false =>
        obtain ⟨-, rfl⟩ := Prod.mk.inj (Except.ok.inj hextend)
        exact hgrows
    | true =>
        obtain ⟨-, rfl⟩ := Prod.mk.inj (Except.ok.inj hextend)
        exact hgrows

/-- Allocation touches the memory managers by heap growth only. -/
theorem kmalloc_grows {size bp : Nat}
    (hkmalloc : kmalloc heap size = .ok (bp, heap')) :
    (heap.vmmSystem spaces).Grows (heap'.vmmSystem spaces) := by
  rcases Nat.eq_zero_or_pos size with rfl | hpos
  · obtain ⟨-, rfl⟩ := Prod.mk.inj (Except.ok.inj hkmalloc)
    exact .refl _
  · rcases hfit : findFit heap.mem (blockSize size) heap.heapBrk
        (nextBlkp heap.mem heap.heapListp) with halt | _ | fit
    · simp only [kmalloc, if_neg (Nat.ne_of_gt hpos), hfit] at hkmalloc
      contradiction
    · rcases hextend : extendHeap heap (extensionSize (blockSize size)) with
        halt | ⟨bp', mid⟩
      · rw [kmalloc_of_error hpos hfit hextend] at hkmalloc
        contradiction
      · have hgrows := extendHeap_grows spaces hextend
        by_cases hbp : bp' = 0
        · subst hbp
          rw [kmalloc_of_full hpos hfit hextend] at hkmalloc
          obtain ⟨-, rfl⟩ := Prod.mk.inj (Except.ok.inj hkmalloc)
          exact hgrows
        · rw [kmalloc_of_extended hpos hfit hbp hextend] at hkmalloc
          obtain ⟨-, rfl⟩ := Prod.mk.inj (Except.ok.inj hkmalloc)
          exact hgrows
    · rw [kmalloc_of_fit hpos hfit] at hkmalloc
      obtain ⟨-, rfl⟩ := Prod.mk.inj (Except.ok.inj hkmalloc)
      exact .refl _

/-- So does the start of the heap, which maps its first page by hand. -/
theorem kheapInit_grows (hinit : kheapInit heap = .ok heap') :
    (VmmSystem.mk heap.paging heapStart spaces).Grows
      (heap'.vmmSystem spaces) := by
  unfold kheapInit at hinit
  dsimp only at hinit
  by_cases hzero : (pmmAllocFrame heap.paging.pmm).1 = 0
  · rw [if_pos hzero] at hinit
    contradiction
  · rw [if_neg hzero] at hinit
    rcases hmap : vmmMapPage
        { heap.paging with pmm := (pmmAllocFrame heap.paging.pmm).2 } heapStart
        (pmmAllocFrame heap.paging.pmm).1 vmmKernelRw with _ | paging
    · rw [hmap] at hinit
      contradiction
    · rw [hmap] at hinit
      dsimp only at hinit
      have hgrow : (VmmSystem.mk heap.paging heapStart spaces).grow =
          some ((layOut heap paging).vmmSystem spaces) := by
        unfold VmmSystem.grow
        dsimp only
        rw [if_neg (by decide), if_neg hzero, hmap]
        rfl
      rcases hextend : extendHeap (layOut heap paging)
          (max (align heapInitial) minBlock) with halt | ⟨bp, mid⟩
      · rw [hextend] at hinit
        cases hinit
      · rw [hextend] at hinit
        dsimp only at hinit
        split_ifs at hinit
        obtain rfl := Except.ok.inj hinit
        exact .cons hgrow (extendHeap_grows spaces hextend)

end Heap

/-- The kernel's addresses: the identity region and the heap mapped so far. -/
def VmmSystem.KernelAddr (sys : VmmSystem) (virt : Nat) : Prop :=
  virt < 2 ^ 22 ∨ heapStart ≤ virt ∧ virt < sys.heapVirtMapped

/-- Translation through a live directory and through the kernel's gives the
same entries at every kernel address. -/
def VmmSystem.Agrees (sys : VmmSystem) : Prop :=
  ∀ space ∈ sys.spaces, ∀ virt, sys.KernelAddr virt →
    walk sys.paging.mem space virt =
      walk sys.paging.mem sys.paging.kernelPdPhys virt

/-- The first 4 MB are shared through the first table. -/
theorem VmmSystem.Inv.walk_identity {sys : VmmSystem} (hinv : sys.Inv)
    {space virt : Nat} (hspace : space ∈ sys.spaces) (hvirt : virt < 2 ^ 22) :
    walk sys.paging.mem space virt =
      walk sys.paging.mem sys.paging.kernelPdPhys virt := by
  have hindex : pdIndex virt = 0 := Nat.div_eq_of_lt hvirt
  unfold walk
  rw [hinv.master, hindex, hinv.tables.copied space hspace]

/-- A directory has nothing outside the first 4 MB. -/
theorem VmmSystem.Inv.walk_space {sys : VmmSystem} (hinv : sys.Inv)
    {space virt : Nat} (hspace : space ∈ sys.spaces) (hhigh : 2 ^ 22 ≤ virt)
    (hvirt : virt < 2 ^ 32) : walk sys.paging.mem space virt = none := by
  have hindex : pdIndex virt ≠ 0 := by
    unfold pdIndex
    omega
  unfold walk
  dsimp only
  rw [hinv.tables.empty space hspace _ (pdIndex_lt hvirt) hindex,
    if_neg not_isPresent_zero]

theorem VmmSystem.Inv.agrees_iff {sys : VmmSystem} (hinv : sys.Inv) :
    sys.Agrees ↔ sys.spaces = [] ∨
      ∀ virt, heapStart ≤ virt → virt < sys.heapVirtMapped →
        walk sys.paging.mem sys.paging.kernelPdPhys virt = none := by
  have hheap : ∀ space ∈ sys.spaces, ∀ virt, heapStart ≤ virt →
      virt < sys.heapVirtMapped → walk sys.paging.mem space virt = none := by
    intro space hspace virt hlow hhigh
    have hceiling := hinv.heap_lt
    exact hinv.walk_space hspace (Nat.le_trans (by decide) hlow) (by omega)
  constructor
  · intro hagrees
    rcases hspaces : sys.spaces with _ | ⟨space, rest⟩
    · exact .inl rfl
    · have hspace : space ∈ sys.spaces := hspaces ▸ List.mem_cons_self
      refine .inr fun virt hlow hhigh => ?_
      rw [← hagrees space hspace virt (.inr ⟨hlow, hhigh⟩),
        hheap space hspace virt hlow hhigh]
  · rintro (hnone | hunmapped) space hspace virt hkernel
    · rw [hnone] at hspace
      contradiction
    · rcases hkernel with hlow | ⟨hlow, hhigh⟩
      · exact hinv.walk_identity hspace hlow
      · rw [hheap space hspace virt hlow hhigh, hunmapped virt hlow hhigh]

/-- In every reachable state the live directories agree with the kernel's
exactly when there is none, or when no page of the heap is mapped any more. -/
theorem addressSpaces_run_iff (mbi : MultibootInfo)
    (kernelPhysStart kernelPhysEnd : UInt32) (mem : PhysMem)
    (init last : VmmSystem) (calls : List VmmCall)
    (hboot : VmmSystem.boot mbi kernelPhysStart kernelPhysEnd mem = some init)
    (hrun : Machine.exec VmmSystem.step init calls = some last) :
    last.Agrees ↔ last.spaces = [] ∨
      ∀ virt, heapStart ≤ virt → virt < last.heapVirtMapped →
        walk last.paging.mem last.paging.kernelPdPhys virt = none :=
  (Machine.exec_invariant VmmSystem.step_inv (VmmSystem.boot_inv hboot)
    hrun).agrees_iff

namespace AddressSpacesWitness

/-- 128 KB of memory at 1 MB, with the kernel image in its first 32 KB. -/
def mbi : MultibootInfo := ⟨0x40, 0, [⟨0x100000, 0x20000, 1⟩]⟩

/-- The run of `calls` after boot on cleared memory. -/
def run (calls : List VmmCall) : Option VmmSystem :=
  (VmmSystem.boot mbi 0x100000 0x108000 fun _ => 0#32).bind fun sys =>
    Machine.exec VmmSystem.step sys calls

/-- The first 64 KB of the heap, as `kheap_init` maps them. -/
def started : List VmmCall := List.replicate 17 .grow

theorem started_space :
    (run (started ++ [.createAddressSpace])).map (fun sys =>
      (sys.spaces, sys.heapVirtMapped,
        walk sys.paging.mem 0x11C000 heapStart,
        (walk sys.paging.mem sys.paging.kernelPdPhys heapStart).isSome)) =
      some ([0x11C000], 0x1011000, none, true) := by
  decide +kernel

/-- An address space created after the heap was started does not have it. -/
theorem heap_missing_in_space :
    ∃ last, run (started ++ [.createAddressSpace]) = some last ∧
      ¬ last.Agrees := by
  obtain ⟨last, hrun, heq⟩ := Option.map_eq_some_iff.mp started_space
  simp only [Prod.mk.injEq] at heq
  obtain ⟨hspaces, hheap, hspace, hkernel⟩ := heq
  refine ⟨last, hrun, fun hagrees => ?_⟩
  have hsame := hagrees 0x11C000 (hspaces ▸ List.mem_singleton_self _) heapStart
    (.inr ⟨Nat.le_refl _, hheap ▸ (by decide)⟩)
  rw [← hsame, hspace] at hkernel
  exact Bool.false_ne_true hkernel

/-- Before the heap has a page, a new address space agrees with the kernel. -/
theorem first_space_agrees :
    ∃ last, run [.createAddressSpace, .unmapPage 0x1000] = some last ∧
      last.spaces = [0x10A000] ∧ last.Agrees := by
  have heval : (run [.createAddressSpace, .unmapPage 0x1000]).map (fun sys =>
      (sys.spaces, sys.heapVirtMapped)) = some ([0x10A000], heapStart) := by
    decide +kernel
  obtain ⟨last, hrun, heq⟩ := Option.map_eq_some_iff.mp heval
  obtain ⟨hspaces, hheap⟩ := Prod.mk.inj heq
  obtain ⟨init, hboot, hexec⟩ := Option.bind_eq_some_iff.mp hrun
  refine ⟨last, hrun, hspaces, ?_⟩
  apply (addressSpaces_run_iff _ _ _ _ _ _ _ hboot hexec).mpr
  exact .inr fun virt hlow hhigh => absurd hhigh (hheap ▸ Nat.not_lt.mpr hlow)

end AddressSpacesWitness

end Orion
