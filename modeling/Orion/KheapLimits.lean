/-
The limits of the heap.  Rounding a request up, adding the tags and adding the
block to `heap_brk` are sums in 32 bits: the largest requests are served with a
block of sixteen bytes, or with one that was never mapped.  And an extension
that fails keeps the pages it mapped before it failed.
-/
import Orion.KheapRequests
import Orion.MemorySystem

namespace Orion

open MachineInt ByteMem BoundaryTag

/-- No free block has `asize` bytes. -/
def NoFit (blocks : List Block) (asize : Nat) : Prop :=
  ∀ block ∈ blocks, block.used = true ∨ block.size < asize

/-- What has to be mapped before the heap has `asize` bytes more. -/
def growStop (heap : Kheap) (asize : Nat) : Nat :=
  heap.heapBrk + max asize pageSize + 4

/-- `p` points to a block in use whose payload has room for `size` bytes. -/
def PointsTo (blocks : List Block) (p size : Nat) : Prop :=
  ∃ header block, At firstBlock blocks header block ∧ p = header + 4 ∧
    block.used = true ∧ size ≤ block.size - 8

section PointsTo

variable {blocks : List Block} {p size : Nat}

theorem PointsTo.ne_zero (hpoints : PointsTo blocks p size) : p ≠ 0 := by
  obtain ⟨header, _, -, rfl, -⟩ := hpoints
  exact Nat.succ_ne_zero _

/-- No block of a well-formed heap is larger than the heap. -/
theorem PointsTo.size_lt {heap : Kheap} (hpoints : PointsTo blocks p size)
    (hshape : HeapShape heap blocks) : size < heapMax := by
  obtain ⟨header, block, hat, -, -, hsize⟩ := hpoints
  have hbounds := hat.bounds
  have hceiling := hshape.laid.ceiling
  have hlarge := block.large
  omega

theorem pointsTo_of_splits {pre rest post : List Block} {free block : Block}
    {asize : Nat} (hsplits : Splits free asize block rest)
    (hfits : asize ≤ free.size) (hsize : size + 8 ≤ asize) :
    PointsTo (pre ++ block :: post) (firstBlock + span pre + 4) size := by
  refine ⟨_, block, ⟨pre, post, rfl, rfl⟩, rfl, hsplits.used, ?_⟩
  have hle := hsplits.fits hfits
  omega

end PointsTo

theorem servingSize_large (size : Nat) : size + 8 ≤ servingSize size := by
  simp only [servingSize]
  omega

section Requests

variable {heap : Kheap} {blocks : List Block} {size : Nat}

/-- The ways a request ends whose sums do not wrap, told from the state before
it. -/
inductive RequestOutcome (heap : Kheap) (blocks : List Block) (size : Nat) :
    Except Halt (Nat × Kheap) → Prop
  | served (p : Nat) (heap' : Kheap) (blocks' : List Block)
      (hroom : NoFit blocks (servingSize size) →
        MapsAll heap (growStop heap (servingSize size)))
      (hshape : HeapShape heap' blocks') (hpoints : PointsTo blocks' p size) :
      RequestOutcome heap blocks size (.ok (p, heap'))
  | panics (hnone : NoFit blocks (servingSize size))
      (hpanics : MapPanics heap (growStop heap (servingSize size))) :
      RequestOutcome heap blocks size (.error .panic)
  | fails (mapped : Nat) (paging : Paging)
      (hnone : NoFit blocks (servingSize size))
      (hrun : ensureMapped heap (growStop heap (servingSize size)) =
        .ok (false, heap.remap mapped paging))
      (hshape : HeapShape (heap.remap mapped paging) blocks) :
      RequestOutcome heap blocks size (.ok (0, heap.remap mapped paging))

theorem kmalloc_requestOutcome (hheap : Mappable heap)
    (hshape : HeapShape heap blocks) (hpos : 0 < size)
    (hfits : RequestFits heap size) :
    RequestOutcome heap blocks size (kmalloc heap size) := by
  have hsize := hfits.size_lt hshape
  have hlarge := servingSize_large size
  rcases hshape.findFit_cases (servingSize size) with
    ⟨-, hnone⟩ | ⟨pre, free, post, rfl, -, hunused, hfit, hbefore⟩
  · have hgrown := kmalloc_of_no_fit hshape hpos hfits hnone
    generalize kmalloc heap size = outcome at hgrown ⊢
    cases hgrown with
    | panic hrun =>
        exact .panics hnone ((ensureMapped_panics_iff hheap).mp hrun)
    | outOfMemory mapped paging hrun hshape' =>
        exact .fails mapped paging hnone hrun hshape'
    | served mapped paging bp heap' pre free block rest hrun hmerges hsplits
        hshape' hallocated =>
        have hfit : servingSize size ≤ free.size :=
          Nat.le_trans (Nat.le_max_left _ _) hmerges.size_le
        refine .served _ _ _ (fun _ => ?_) hshape' ?_
        · exact (ensureMapped_succeeds_iff hheap).mp ⟨_, hrun⟩
        · rw [hallocated.payload]
          exact pointsTo_of_splits hsplits hfit hlarge
  · have hfirst : FirstFit (pre ++ free :: post) (servingSize size) pre free post :=
      ⟨rfl, hunused, hfit, hbefore⟩
    obtain ⟨block, rest, mem, hsplits, hrun, hshape'⟩ :=
      hfirst.kmalloc hshape hpos hsize
    rw [hrun]
    refine .served _ _ _ (fun hnone => ?_) hshape'
      (pointsTo_of_splits hsplits hfit hlarge)
    rcases hnone free (by simp) with hused | hsmall
    · rw [hunused] at hused
      contradiction
    · omega

/-- The sum with the size of the tags wraps: the request is treated like one of
eight bytes. -/
theorem kmalloc_of_overflow (hsize : size < 2 ^ 32) (hover : 2 ^ 32 ≤ size + 15) :
    kmalloc heap size = kmalloc heap 8 := by
  have hblock : blockSize size = blockSize 8 := by
    simp only [blockSize, align, dwsize, minBlock, u32]
    omega
  simp only [kmalloc, if_neg (show size ≠ 0 by omega), hblock,
    if_neg (show (8 : Nat) ≠ 0 by decide)]

end Requests

section Wrapped

variable {heap : Kheap} {blocks : List Block} {size asize : Nat}

theorem coalesce_fst (mem : Mem) (bp : Nat) :
    (coalesce mem bp).1 = bp ∨ (coalesce mem bp).1 = prevBlkp mem bp := by
  simp only [coalesce]
  split <;> simp

/-- The footer before the epilogue describes something inside the heap. -/
theorem Laid.lastFooter_le {mem : Mem} (hlaid : Laid mem blocks) :
    getSize mem (firstBlock + span blocks - 4) ≤ span blocks + 8 := by
  rcases List.eq_nil_or_concat blocks with rfl | ⟨rest, last, rfl⟩
  · have hfooter : getSize mem (heapStart + 8) = 8 := by
      rw [getSize, hlaid.prologueFooter]
    exact Nat.le_of_eq hfooter
  · rw [List.concat_eq_append] at hlaid ⊢
    have hfooter := getSize_of_tag hlaid.tags.2
    simp only [span_append, span_cons, span_nil, Nat.add_zero,
      ← Nat.add_assoc] at hfooter ⊢
    rw [hfooter]
    omega

/-- The block of a request that wraps `heap_brk` ends below the epilogue, and
its tags are written there; the footer before the epilogue is left alone, so
that the pointer to the block is not null. -/
theorem extendMapped_wrapped (hshape : HeapShape heap blocks)
    (haligned : asize % 8 = 0) (hasize : asize < 2 ^ 32)
    (hwraps : 2 ^ 32 ≤ heap.heapBrk + asize + 4) :
    (extendMapped heap asize).1 ≠ 0 := by
  have hspan := span_aligned blocks
  have hceiling := hshape.laid.ceiling
  have hlast := hshape.laid.lastFooter_le
  have hfirst : firstBlock = 0x0100000C := rfl
  simp only [heapMax] at hceiling
  rw [← hshape.brk] at hceiling hlast
  have hbrk := hshape.brk
  generalize hbrkEq : heap.heapBrk = brk at *
  have hbp : u32 (brk + wsize) = brk + 4 := u32_of_lt (by simp only [wsize]; omega)
  have hhdr : hdrp (brk + 4) = brk := hdrp_payload (by omega)
  have hword : ∀ mem, getWord mem brk = asize → getSize mem brk = asize := by
    intro mem htag
    rw [getSize, htag]
    omega
  -- the wrapped end of the block
  obtain ⟨stop, hstop⟩ : ∃ stop, u32 (brk + 4 + asize) = stop := ⟨_, rfl⟩
  have hend : stop + 2 ^ 32 = brk + 4 + asize := by
    rw [← hstop, u32]
    omega
  have hfooter : sub32 stop 8 + 8 ≤ brk - 4 ∨ brk + 4 ≤ sub32 stop 8 := by
    simp only [sub32, u32]
    omega
  have hepilogue : sub32 stop 4 + 4 ≤ brk - 4 ∨ brk + 4 ≤ sub32 stop 4 := by
    simp only [sub32, u32]
    omega
  let header := putWord heap.mem brk asize
  let tags := putWord header (sub32 stop 8) asize
  have hheader : getSize header brk = asize :=
    hword _ (getWord_putWord _ hasize)
  have htags : getSize tags brk = asize := by
    apply hword
    rw [getWord_putWord_of_disjoint _ _ (by omega)]
    exact getWord_putWord _ hasize
  have hftrp : ftrp header (brk + 4) = sub32 stop 8 := by
    rw [ftrp, hhdr, hheader, hstop, dwsize]
  have hnext : hdrp (nextBlkp tags (brk + 4)) = sub32 stop 4 := by
    rw [nextBlkp, hhdr, htags, hstop, hdrp, wsize]
  have hkept : getWord (putWord tags (sub32 stop 4) 1) (brk - 4) =
      getWord heap.mem (brk - 4) := by
    rw [getWord_putWord_of_disjoint _ _ (by omega),
      getWord_putWord_of_disjoint _ _ (by omega),
      getWord_putWord_of_disjoint _ _ (by omega)]
  have hprev : prevBlkp (putWord tags (sub32 stop 4) 1) (brk + 4) =
      brk - getSize heap.mem (brk - 4) + 4 := by
    apply prevBlkp_payload _ (by omega) (by omega)
    rw [getSize, hkept, getSize]
  have hrun : (extendMapped heap asize).1 =
      (coalesce (putWord tags (sub32 stop 4) 1) (brk + 4)).1 := by
    have hpack : pack 0 1 = 1 := rfl
    simp only [extendMapped, hbrkEq, hbp, pack_zero, hpack]
    rw [hftrp, hnext]
  rw [hrun]
  rcases coalesce_fst (putWord tags (sub32 stop 4) 1) (brk + 4) with h | h
  · rw [h]
    omega
  · rw [h, hprev]
    omega

/-- A request that wraps `heap_brk` maps nothing and is granted. -/
theorem kmalloc_wrapped (hshape : HeapShape heap blocks)
    (hsize : size + 15 < 2 ^ 32) (hwraps : ¬ RequestFits heap size) :
    ∃ p heap', kmalloc heap size = .ok (p, heap') ∧ p ≠ 0 := by
  have hbrk := hshape.brk
  have hceiling := hshape.laid.ceiling
  have hmapped := hshape.mapped
  have hfirst : firstBlock = 0x0100000C := rfl
  simp only [heapMax] at hceiling
  unfold RequestFits at hwraps
  have hblock : blockSize size = (size + 7) / 8 * 8 + 8 := by
    rw [blockSize_eq hsize, minBlock, dwsize]
    omega
  have haligned : blockSize size % 8 = 0 := blockSize_aligned hsize
  have hgrow : extensionSize (blockSize size) = blockSize size := by
    rw [extensionSize_eq haligned (by omega), pageSize]
    omega
  have hmiss : findFit heap.mem (blockSize size) heap.heapBrk
      (nextBlkp heap.mem heap.heapListp) = .ok none := by
    rcases hshape.findFit_cases (blockSize size) with
      ⟨hnone, -⟩ | ⟨pre, free, post, rfl, -, -, hfit, -⟩
    · exact hnone
    · rw [span_append, span_cons] at hbrk hceiling
      omega
  have hmaps : ensureMapped heap
      (u32 (heap.heapBrk + blockSize size + wsize)) = .ok (true, heap) := by
    apply ensureMappedLoop_done
    simp only [u32, wsize]
    omega
  have hextend : extendHeap heap (extensionSize (blockSize size)) =
      .ok (extendMapped heap (blockSize size)) := by
    rw [hgrow, extendHeap, hmaps]
    rfl
  have hne := extendMapped_wrapped hshape haligned (by omega) (by omega)
  exact ⟨_, _, kmalloc_of_extended (by omega) hmiss hne hextend, hne⟩

end Wrapped

/-- `kmalloc` returns null or a block with room for the request, and leaves the
blocks well formed. -/
def ServesEnough (heap : Kheap) (size : Nat) : Prop :=
  ∃ p heap' blocks', kmalloc heap size = .ok (p, heap') ∧
    HeapShape heap' blocks' ∧ (p = 0 ∨ PointsTo blocks' p size)

/-- No sum of the request wraps, and mapping more heap for it does not end with
the last frame gone and a page table missing; or the request is within sixteen
bytes of `2 ^ 32`, and not even a block of sixteen bytes can be had. -/
def EnoughWhen (heap : Kheap) (blocks : List Block) (size : Nat) : Prop :=
  (RequestFits heap size ∧ (NoFit blocks (servingSize size) →
    ¬ MapPanics heap (growStop heap (servingSize size)))) ∨
  (2 ^ 32 ≤ size + 15 ∧ NoFit blocks minBlock ∧
    ¬ MapsAll heap (growStop heap minBlock) ∧
    ¬ MapPanics heap (growStop heap minBlock))

section Limits

variable {heap : Kheap} {blocks : List Block} {size stop : Nat}

/-- The three ways the mapping ends exclude one another. -/
theorem MapsAll.not_mapPanics (hheap : Mappable heap)
    (hmaps : MapsAll heap stop) : ¬ MapPanics heap stop := by
  intro hpanics
  obtain ⟨heap', hrun⟩ := (ensureMapped_succeeds_iff hheap).mpr hmaps
  rw [(ensureMapped_panics_iff hheap).mpr hpanics] at hrun
  contradiction

theorem not_maps_of_fails (hheap : Mappable heap) {heap' : Kheap}
    (hrun : ensureMapped heap stop = .ok (false, heap')) :
    ¬ MapsAll heap stop ∧ ¬ MapPanics heap stop := by
  constructor
  · intro hmaps
    obtain ⟨heap'', hrun'⟩ := (ensureMapped_succeeds_iff hheap).mpr hmaps
    rw [hrun] at hrun'
    simp at hrun'
  · intro hpanics
    rw [(ensureMapped_panics_iff hheap).mpr hpanics] at hrun
    contradiction

theorem not_servesEnough_of_panic {halt : Halt}
    (hrun : kmalloc heap size = .error halt) : ¬ ServesEnough heap size := by
  rintro ⟨p, heap', blocks', hrun', -⟩
  rw [hrun] at hrun'
  contradiction

/-- A pointer that is not null never stands for a request larger than the
heap. -/
theorem not_servesEnough_of_large (hlarge : heapMax ≤ size) {p : Nat}
    {heap' : Kheap} (hrun : kmalloc heap size = .ok (p, heap')) (hp : p ≠ 0) :
    ¬ ServesEnough heap size := by
  rintro ⟨p', heap'', blocks', hrun', hshape, hzero | hpoints⟩
  · rw [hrun, Except.ok.injEq, Prod.mk.injEq] at hrun'
    exact hp (hrun'.1.trans hzero)
  · have hsmall := hpoints.size_lt hshape
    omega

/-- Both kinds of request whose sums wrap ask for more than the heap can ever
hold. -/
theorem HeapShape.large_of_wraps (hshape : HeapShape heap blocks)
    (hwraps : ¬ RequestFits heap size) : heapMax ≤ size := by
  have hbrk := hshape.brk
  have hceiling := hshape.laid.ceiling
  simp only [heapMax] at hceiling ⊢
  unfold RequestFits at hwraps
  omega

theorem servesEnough_of_fits (hheap : Mappable heap)
    (hshape : HeapShape heap blocks) (hpos : 0 < size)
    (hfits : RequestFits heap size) :
    ServesEnough heap size ↔ (NoFit blocks (servingSize size) →
      ¬ MapPanics heap (growStop heap (servingSize size))) := by
  have houtcome := kmalloc_requestOutcome hheap hshape hpos hfits
  generalize hrun : kmalloc heap size = outcome at houtcome
  cases houtcome with
  | served p heap' blocks' hroom hshape' hpoints =>
      exact iff_of_true ⟨p, heap', blocks', hrun, hshape', .inr hpoints⟩
        fun hnone => (hroom hnone).not_mapPanics hheap
  | panics hnone hpanics =>
      exact iff_of_false (not_servesEnough_of_panic hrun)
        fun hquiet => hquiet hnone hpanics
  | fails mapped paging hnone hmaps hshape' =>
      exact iff_of_true ⟨0, _, blocks, hrun, hshape', .inl rfl⟩
        fun _ => (not_maps_of_fails hheap hmaps).2

theorem servesEnough_of_overflow (hheap : Mappable heap)
    (hshape : HeapShape heap blocks) (hsize : size < 2 ^ 32)
    (hover : 2 ^ 32 ≤ size + 15) :
    ServesEnough heap size ↔ NoFit blocks minBlock ∧
      ¬ MapsAll heap (growStop heap minBlock) ∧
      ¬ MapPanics heap (growStop heap minBlock) := by
  have hlarge : heapMax ≤ size := by
    simp only [heapMax]
    omega
  have hserving : servingSize 8 = minBlock := rfl
  have houtcome := @kmalloc_requestOutcome heap blocks 8 hheap hshape (by decide)
    (hshape.requestFits (by decide))
  rw [← kmalloc_of_overflow hsize hover] at houtcome
  generalize hrun : kmalloc heap size = outcome at houtcome
  cases houtcome with
  | served p heap' blocks' hroom hshape' hpoints =>
      rw [hserving] at hroom
      exact iff_of_false (not_servesEnough_of_large hlarge hrun hpoints.ne_zero)
        fun hwhen => hwhen.2.1 (hroom hwhen.1)
  | panics hnone hpanics =>
      exact iff_of_false (not_servesEnough_of_panic hrun)
        fun hwhen => hwhen.2.2 hpanics
  | fails mapped paging hnone hmaps hshape' =>
      exact iff_of_true ⟨0, _, blocks, hrun, hshape', .inl rfl⟩
        ⟨hnone, not_maps_of_fails hheap hmaps⟩

theorem servesEnough_iff (hheap : Mappable heap) (hshape : HeapShape heap blocks)
    (hpos : 1 ≤ size) (hsize : size < 2 ^ 32) :
    ServesEnough heap size ↔ EnoughWhen heap blocks size := by
  by_cases hfits : RequestFits heap size
  · have hsmall := hfits.size_lt hshape
    rw [servesEnough_of_fits hheap hshape hpos hfits, EnoughWhen]
    simp only [hfits, true_and, Nat.not_le.mpr hsmall, false_and, or_false]
  · by_cases hover : 2 ^ 32 ≤ size + 15
    · rw [servesEnough_of_overflow hheap hshape hsize hover, EnoughWhen]
      simp only [hfits, hover, false_and, true_and, false_or]
    · obtain ⟨p, heap', hrun, hp⟩ :=
        kmalloc_wrapped hshape (Nat.not_le.mp hover) hfits
      apply iff_of_false
      · exact not_servesEnough_of_large (hshape.large_of_wraps hfits) hrun hp
      · rintro (⟨hfits', -⟩ | ⟨hover', -⟩)
        · exact hfits hfits'
        · exact hover hover'

end Limits

/-- In every state that the memory managers reach with requests whose sums do
not wrap, `kmalloc` hands out null or enough exactly when the next request does
not wrap either and finds its page tables, or is too near `2 ^ 32` to get even
the sixteen bytes that its wrapped sums ask for. -/
theorem memory_run_kmalloc_enough_iff (mbi : MultibootInfo)
    (kernelPhysStart kernelPhysEnd : UInt32) (mem : PhysMem) (bytes : Mem)
    (start sys : MemorySystem) (calls : List MemoryCall)
    (hboot : MemorySystem.boot mbi kernelPhysStart kernelPhysEnd mem bytes =
      some start)
    (hrun : Machine.exec
      (Machine.guarded MemorySystem.fits MemorySystem.step) start calls =
        some sys) :
    ∃ blocks, HeapShape sys.heap.heap blocks ∧
      ∀ size, 1 ≤ size → size < 2 ^ 32 →
        (ServesEnough sys.heap.heap size ↔
          EnoughWhen sys.heap.heap blocks size) := by
  have hinv := MemorySystem.run_inv hboot hrun
  obtain ⟨blocks, hheap⟩ := hinv.heap
  exact ⟨blocks, hheap.shape, fun size hpos hsize =>
    servesEnough_iff hinv.mappable hheap.shape hpos hsize⟩

/-- A call has left no trace in the heap, the page tables and the bitmap of the
frames. -/
structure Untouched (heap : Kheap) (blocks : List Block) (heap' : Kheap) :
    Prop where
  blocks : HeapShape heap' blocks
  brk : heap'.heapBrk = heap.heapBrk
  mapped : heap'.heapVirtMapped = heap.heapVirtMapped
  mappings : ∀ virt,
    walk heap'.paging.mem heap'.paging.pageDirectory virt =
      walk heap.paging.mem heap.paging.pageDirectory virt
  frames : ∀ frame,
    bitmapTest heap'.paging.pmm frame = bitmapTest heap.paging.pmm frame

/-- `kmalloc` satisfies the request, or returns null without a trace. -/
def FailsCleanly (heap : Kheap) (blocks : List Block) (size : Nat) : Prop :=
  ∃ p heap', kmalloc heap size = .ok (p, heap') ∧
    ((∃ blocks', HeapShape heap' blocks' ∧ PointsTo blocks' p size) ∨
      p = 0 ∧ Untouched heap blocks heap')

/-- A call that returned null mapped `k` pages before it ran out of room or of
frames; the blocks and `heap_brk` are as they were. -/
structure FailsKeeping (heap : Kheap) (blocks : List Block) (stop k : Nat)
    (heap' : Kheap) : Prop where
  blocks : HeapShape heap' blocks
  brk : heap'.heapBrk = heap.heapBrk
  mapped : heap'.heapVirtMapped = heap.heapVirtMapped + k * pageSize
  pages : MapsPages heap k heap'.paging
  short : k < pagesNeeded heap stop
  stuck : k = pagesLeft heap ∨ clearFrames heap'.paging.pmm = 0
  untouched : k = 0 → heap' = heap

section Atomicity

variable {heap : Kheap} {blocks : List Block} {size stop : Nat}

theorem not_failsCleanly_of_panic {halt : Halt}
    (hrun : kmalloc heap size = .error halt) :
    ¬ FailsCleanly heap blocks size := by
  rintro ⟨p, heap', hrun', -⟩
  rw [hrun] at hrun'
  contradiction

/-- What null says about the state behind it. -/
theorem FailsCleanly.untouched {heap' : Kheap}
    (hclean : FailsCleanly heap blocks size)
    (hrun : kmalloc heap size = .ok (0, heap')) :
    Untouched heap blocks heap' := by
  obtain ⟨p, heap'', hrun', hcase⟩ := hclean
  rw [hrun, Except.ok.injEq, Prod.mk.injEq] at hrun'
  obtain ⟨rfl, rfl⟩ := hrun'
  rcases hcase with ⟨_, _, hpoints⟩ | ⟨-, huntouched⟩
  · exact absurd rfl hpoints.ne_zero
  · exact huntouched

theorem failsKeeping_of_run (hheap : Mappable heap) {mapped : Nat}
    {paging : Paging}
    (hrun : ensureMapped heap stop = .ok (false, heap.remap mapped paging))
    (hshape : HeapShape (heap.remap mapped paging) blocks) :
    ∃ k, FailsKeeping heap blocks stop k (heap.remap mapped paging) := by
  obtain ⟨k, paging', hheap', hpages, hnone, hshort, hstuck⟩ :=
    ensureMappedLoop_fails hheap hrun
  rw [hheap'] at hshape ⊢
  refine ⟨k, hshape, rfl, rfl, hpages, hshort, hstuck, ?_⟩
  rintro rfl
  rw [hnone rfl, Nat.zero_mul]
  rfl

/-- A request of 64 MB or more passes the ceiling: while there is room for a
page and a frame to back it, the failure is seen afterwards. -/
theorem not_failsCleanly_of_ceiling (hheap : Mappable heap)
    (hshape : HeapShape heap blocks) (hpos : 0 < size)
    (hfits : RequestFits heap size) (hlarge : heapMax ≤ heapStart + size)
    (hroom : heap.heapVirtMapped + pageSize ≤ heapMax)
    (hframes : clearFrames heap.paging.pmm ≠ 0) :
    ¬ FailsCleanly heap blocks size := by
  have hserving := servingSize_large size
  have hbrk := hshape.brk
  have hfirst : firstBlock = heapStart + 12 := rfl
  have hnone : NoFit blocks (servingSize size) := by
    intro block hblock
    obtain ⟨pre, post, rfl⟩ := List.append_of_mem hblock
    have hceiling := hshape.laid.ceiling
    rw [span_append, span_cons] at hceiling
    omega
  have hover : pagesLeft heap <
      pagesNeeded heap (growStop heap (servingSize size)) := by
    have hceiling := hheap.ceiling
    simp only [pagesLeft, pagesNeeded, growStop, pageSize] at *
    omega
  have hleft := pagesLeft_pos hroom
  have houtcome := kmalloc_requestOutcome hheap hshape hpos hfits
  generalize hrun : kmalloc heap size = outcome at houtcome
  cases houtcome with
  | served p heap' blocks' hmaps hshape' hpoints =>
      have hall := (hmaps hnone).1
      omega
  | panics _ hpanics => exact not_failsCleanly_of_panic hrun
  | fails mapped paging _ hmaps hshape' =>
      intro hclean
      obtain ⟨k, hkeeping⟩ := failsKeeping_of_run hheap hmaps hshape'
      have hsame := (hclean.untouched hrun).mapped
      have hmapped := hkeeping.mapped
      have hstuck := hkeeping.stuck
      have hzero : k = 0 := by
        simp only [pageSize] at hmapped
        omega
      rw [hkeeping.untouched hzero] at hstuck
      omega

/-- What a request comes to whose sums do not wrap, and which does not end in
a panic of the page mapper. -/
theorem kmalloc_serves_or_keeps (hheap : Mappable heap)
    (hshape : HeapShape heap blocks) (hpos : 0 < size)
    (hfits : RequestFits heap size)
    (hquiet : NoFit blocks (servingSize size) →
      ¬ MapPanics heap (growStop heap (servingSize size))) :
    ∃ p heap', kmalloc heap size = .ok (p, heap') ∧
      ((∃ blocks', HeapShape heap' blocks' ∧ PointsTo blocks' p size) ∨
        p = 0 ∧ NoFit blocks (servingSize size) ∧ ∃ k,
          FailsKeeping heap blocks (growStop heap (servingSize size)) k
            heap') := by
  have houtcome := kmalloc_requestOutcome hheap hshape hpos hfits
  generalize kmalloc heap size = outcome at houtcome
  cases houtcome with
  | served p heap' blocks' _ hshape' hpoints =>
      exact ⟨p, heap', rfl, .inl ⟨blocks', hshape', hpoints⟩⟩
  | panics hnone hpanics => exact absurd hpanics (hquiet hnone)
  | fails mapped paging hnone hmaps hshape' =>
      exact ⟨0, _, rfl, .inr ⟨rfl, hnone,
        failsKeeping_of_run hheap hmaps hshape'⟩⟩

end Atomicity

/-- In every state that the memory managers reach with requests whose sums do
not wrap, the next such request is satisfied, or returns null with the blocks
and `heap_brk` as they were: the pages that were mapped before the ceiling or
the last frame was reached stay mapped, and nothing else changes. -/
theorem memory_run_kmalloc_keeps_pages (mbi : MultibootInfo)
    (kernelPhysStart kernelPhysEnd : UInt32) (mem : PhysMem) (bytes : Mem)
    (start sys : MemorySystem) (calls : List MemoryCall)
    (hboot : MemorySystem.boot mbi kernelPhysStart kernelPhysEnd mem bytes =
      some start)
    (hrun : Machine.exec
      (Machine.guarded MemorySystem.fits MemorySystem.step) start calls =
        some sys) :
    ∃ blocks, HeapShape sys.heap.heap blocks ∧
      kmalloc sys.heap.heap 0 = .ok (0, sys.heap.heap) ∧
      ∀ size, 0 < size → RequestFits sys.heap.heap size →
        (NoFit blocks (servingSize size) → ¬ MapPanics sys.heap.heap
          (growStop sys.heap.heap (servingSize size))) →
        ∃ p heap', kmalloc sys.heap.heap size = .ok (p, heap') ∧
          ((∃ blocks', HeapShape heap' blocks' ∧ PointsTo blocks' p size) ∨
            p = 0 ∧ NoFit blocks (servingSize size) ∧ ∃ k,
              FailsKeeping sys.heap.heap blocks
                (growStop sys.heap.heap (servingSize size)) k heap') := by
  have hinv := MemorySystem.run_inv hboot hrun
  obtain ⟨blocks, hheap⟩ := hinv.heap
  exact ⟨blocks, hheap.shape, rfl, fun size hpos hfits hquiet =>
    kmalloc_serves_or_keeps hinv.mappable hheap.shape hpos hfits hquiet⟩

/-- What the holder of a frame stores to it changes no translation. -/
def PrivateFrames (sys : MemorySystem) : Prop :=
  ∀ frame i word next, sys.step (.writeFrame frame i word) = some next →
    ∀ virt < 2 ^ 32, translate next.paging.mem next.paging.pageDirectory virt =
      translate sys.paging.mem sys.paging.pageDirectory virt

/-- A frame that is handed out is never a table that the kernel walks. -/
theorem memory_run_private_frames (mbi : MultibootInfo)
    (kernelPhysStart kernelPhysEnd : UInt32) (mem : PhysMem) (bytes : Mem)
    (start sys : MemorySystem) (calls : List MemoryCall)
    (hboot : MemorySystem.boot mbi kernelPhysStart kernelPhysEnd mem bytes =
      some start)
    (hrun : Machine.exec
      (Machine.guarded MemorySystem.fits MemorySystem.step) start calls =
        some sys) : PrivateFrames sys := by
  have hinv := MemorySystem.run_inv hboot hrun
  intro frame i word next hstep virt hvirt
  simp only [MemorySystem.step] at hstep
  split_ifs at hstep with hheld
  obtain rfl := Option.some.inj hstep
  have hframe := pmmMaxFrames_isFrame (hinv.bounded frame hheld.1)
  have hapart := hinv.frames.apart frame hheld.1
  apply congrArg (Option.map _)
  apply walk_congr
  · exact update_table_of_ne hframe hinv.frames.tables.directory.frame
      (fun heq => hapart (.inl heq.symm)) (pdIndex_lt hvirt) hheld.2 word
  · intro hpresent
    apply update_table_of_ne hframe (entryTable_isFrame _) _ (ptIndex_lt virt)
      hheld.2
    exact fun heq => hapart (.inr (.inl ⟨_, pdIndex_lt hvirt, hpresent, heq⟩))

namespace KheapLimitsWitness

/-- 144 KB of memory at 1 MB, with the kernel image in its first 32 KB: after
boot eight frames are left. -/
def mbi : MultibootInfo := ⟨0x40, 0, [⟨0x100000, 0x24000, 1⟩]⟩

def boot : Option MemorySystem :=
  MemorySystem.boot mbi 0x100000 0x108000 (fun _ => 0#32) fun _ => 0

theorem boot_grants_everything :
    (boot.bind fun sys => (kmalloc sys.heap.heap 0xFFFFFFFF).toOption.map
      fun result => (result.1, getSize result.2.mem (hdrp result.1))) =
      some (0x1000010, 16) := by
  decide +kernel

/-- A request of 4 GB less a byte is served with a block of sixteen bytes. -/
theorem four_gigabytes_in_sixteen_bytes :
    ∃ sys, boot = some sys ∧
      (∃ p heap', kmalloc sys.heap.heap 0xFFFFFFFF = .ok (p, heap') ∧ p ≠ 0 ∧
        getSize heap'.mem (hdrp p) = 16) ∧
      ¬ ServesEnough sys.heap.heap 0xFFFFFFFF := by
  obtain ⟨sys, hboot, hview⟩ :=
    Option.bind_eq_some_iff.mp boot_grants_everything
  obtain ⟨⟨p, heap'⟩, hrun, heq⟩ := Option.map_eq_some_iff.mp hview
  obtain ⟨rfl, hsize⟩ := Prod.mk.inj heq
  have hrun := toOption_eq_some hrun
  exact ⟨sys, hboot, ⟨_, heap', hrun, by decide, hsize⟩,
    not_servesEnough_of_large (by decide) hrun (by decide)⟩

theorem boot_has_frames :
    boot.map (fun sys => (sys.heap.heap.heapVirtMapped,
      (pmmAllocFrame sys.heap.heap.paging.pmm).1)) =
      some (0x1011000, 0x11C000) := by
  decide +kernel

/-- A request of 64 MB passes the ceiling, which the mapping finds out after it
has mapped what it could. -/
theorem sixty_four_megabytes_leave_pages :
    ∃ sys, boot = some sys ∧ ∃ blocks, HeapShape sys.heap.heap blocks ∧
      ¬ FailsCleanly sys.heap.heap blocks 0x4000000 := by
  obtain ⟨sys, hboot, heq⟩ := Option.map_eq_some_iff.mp boot_has_frames
  simp only [Prod.mk.injEq] at heq
  obtain ⟨hmapped, halloc⟩ := heq
  have hinv := MemorySystem.boot_inv hboot
  obtain ⟨blocks, hheap⟩ := hinv.heap
  have hshape := hheap.shape
  refine ⟨sys, hboot, blocks, hshape, ?_⟩
  apply not_failsCleanly_of_ceiling hinv.mappable hshape (by decide)
    (hshape.requestFits (by decide)) (by decide)
  · rw [hmapped]
    decide
  · intro hnone
    rcases pmmAllocFrame_counts hinv.mappable.searchable with
      ⟨-, hfail⟩ | ⟨_, _, -, -, -, hcount⟩
    · simp [hfail] at halloc
    · omega

def calls : List MemoryCall :=
  [.heap (.kmalloc 100), .allocFrame, .mapPage 0x5000000 0x100000 3#32,
    .unmapPage 0x1000]

theorem calls_leave_room :
    (boot.bind fun start =>
      (Machine.exec (Machine.guarded MemorySystem.fits MemorySystem.step) start
        calls).bind fun sys =>
          (ensureMapped sys.heap.heap
            (growStop sys.heap.heap (servingSize 1))).toOption.map Prod.fst) =
      some true := by
  decide +kernel

/-- A state in which there is room for a page. -/
theorem calls_mapsAll :
    ∃ start sys, boot = some start ∧
      Machine.exec (Machine.guarded MemorySystem.fits MemorySystem.step) start
        calls = some sys ∧
      Mappable sys.heap.heap ∧
      MapsAll sys.heap.heap (growStop sys.heap.heap (servingSize 1)) := by
  obtain ⟨start, hboot, hrest⟩ := Option.bind_eq_some_iff.mp calls_leave_room
  obtain ⟨sys, hrun, hview⟩ := Option.bind_eq_some_iff.mp hrest
  obtain ⟨⟨done, heap'⟩, hmaps, rfl⟩ := Option.map_eq_some_iff.mp hview
  have hheap := (MemorySystem.run_inv hboot hrun).mappable
  exact ⟨start, sys, hboot, hrun, hheap,
    (ensureMapped_succeeds_iff hheap).mp ⟨heap', toOption_eq_some hmaps⟩⟩

theorem calls_private_frames : ∃ start sys, boot = some start ∧
    Machine.exec (Machine.guarded MemorySystem.fits MemorySystem.step) start
      calls = some sys ∧ PrivateFrames sys := by
  obtain ⟨start, sys, hboot, hrun, -⟩ := calls_mapsAll
  exact ⟨start, sys, hboot, hrun,
    memory_run_private_frames _ _ _ _ _ start sys calls hboot hrun⟩

theorem one_byte_enough :
    ∃ start sys, boot = some start ∧
      Machine.exec (Machine.guarded MemorySystem.fits MemorySystem.step) start
        calls = some sys ∧ ServesEnough sys.heap.heap 1 := by
  obtain ⟨start, sys, hboot, hrun, hheap, hmaps⟩ := calls_mapsAll
  obtain ⟨blocks, hshape, hiff⟩ :=
    memory_run_kmalloc_enough_iff _ _ _ _ _ start sys calls hboot hrun
  refine ⟨start, sys, hboot, hrun, (hiff 1 (by decide) (by decide)).mpr ?_⟩
  exact .inl ⟨hshape.requestFits (by decide),
    fun _ => hmaps.not_mapPanics hheap⟩

theorem one_byte_returns :
    ∃ start sys p heap', boot = some start ∧
      Machine.exec (Machine.guarded MemorySystem.fits MemorySystem.step) start
        calls = some sys ∧ kmalloc sys.heap.heap 1 = .ok (p, heap') := by
  obtain ⟨start, sys, hboot, hrun, hheap, hmaps⟩ := calls_mapsAll
  obtain ⟨blocks, hshape, -, hkeeps⟩ :=
    memory_run_kmalloc_keeps_pages _ _ _ _ _ start sys calls hboot hrun
  obtain ⟨p, heap', hmalloc, -⟩ := hkeeps 1 (by decide)
    (hshape.requestFits (by decide)) fun _ => hmaps.not_mapPanics hheap
  exact ⟨start, sys, p, heap', hboot, hrun, hmalloc⟩

end KheapLimitsWitness

end Orion
