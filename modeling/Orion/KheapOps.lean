/-
What each heap operation does to the list of blocks.  An operation either
panics in the page mapper, reports out of memory and changes no block, or
performs one edit of the list.
-/
import Orion.KheapBlocks

namespace Orion

open MachineInt ByteMem BoundaryTag

/-- The heap statics fit a coalesced list of blocks. -/
structure HeapShape (heap : Kheap) (blocks : List Block) : Prop where
  laid : Laid heap.mem blocks
  coalesced : Coalesced blocks
  listp : heap.heapListp = heapStart + 8
  brk : heap.heapBrk = firstBlock + span blocks
  mapped : heap.heapBrk + 4 ≤ heap.heapVirtMapped
  ceiling : heap.heapVirtMapped ≤ heapMax

/-- The heap after mapping some pages. -/
def Kheap.remap (heap : Kheap) (mapped : Nat) (paging : Paging) : Kheap :=
  { heap with heapVirtMapped := mapped, paging := paging }

theorem HeapShape.remap {heap : Kheap} {blocks : List Block} {mapped : Nat}
    (hshape : HeapShape heap blocks) (paging : Paging)
    (hgrows : heap.heapVirtMapped ≤ mapped) (hceiling : mapped ≤ heapMax) :
    HeapShape (heap.remap mapped paging) blocks where
  laid := hshape.laid
  coalesced := hshape.coalesced
  listp := hshape.listp
  brk := hshape.brk
  mapped := Nat.le_trans hshape.mapped hgrows
  ceiling := hceiling

section EnsureMapped

variable {heap : Kheap} {stop : Nat}

/-- The loop ends within its budget, and only ever maps pages. -/
theorem ensureMappedLoop_spec {budget : Nat}
    (hceiling : heap.heapVirtMapped ≤ heapMax)
    (hbudget : heapMax < budget * pageSize + heap.heapVirtMapped) :
    ensureMappedLoop stop budget heap = .error .panic ∨
      ∃ done mapped paging,
        ensureMappedLoop stop budget heap =
          .ok (done, heap.remap mapped paging) ∧
        heap.heapVirtMapped ≤ mapped ∧ mapped ≤ heapMax ∧
        (done = true → stop ≤ mapped) := by
  induction budget generalizing heap with
  | zero => omega
  | succ budget ih =>
      have hbudget' : heapMax <
          budget * pageSize + (heap.heapVirtMapped + pageSize) := by
        rw [Nat.add_mul] at hbudget
        omega
      have hnext : u32 (heap.heapVirtMapped + pageSize) =
          heap.heapVirtMapped + pageSize := by
        apply u32_of_lt
        simp only [pageSize, heapMax] at hceiling ⊢
        omega
      rw [ensureMappedLoop, hnext]
      by_cases hmore : heap.heapVirtMapped < stop
      · rw [if_pos hmore]
        by_cases hfull : heapMax < heap.heapVirtMapped + pageSize
        · rw [if_pos hfull]
          exact Or.inr ⟨false, heap.heapVirtMapped, heap.paging, rfl,
            Nat.le_refl _, hceiling, by simp⟩
        · rw [if_neg hfull]
          rcases pmmAllocFrame heap.paging.pmm with ⟨phys, pmm⟩
          by_cases hphys : phys = 0
          · simp only [hphys, ↓reduceIte]
            exact Or.inr ⟨false, heap.heapVirtMapped, _, rfl,
              Nat.le_refl _, hceiling, by simp⟩
          · simp only [hphys, ↓reduceIte]
            cases vmmMapPage { heap.paging with pmm := pmm }
                heap.heapVirtMapped phys vmmKernelRw with
            | none => exact Or.inl rfl
            | some paging =>
                -- one more page is mapped: the rest of the loop starts there
                rcases @ih (heap.remap (heap.heapVirtMapped + pageSize) paging)
                    (Nat.le_of_not_lt hfull) hbudget' with hpanic |
                  ⟨done, mapped, paging', hrun, hgrows, hmax, hdone⟩
                · exact Or.inl hpanic
                · refine Or.inr ⟨done, mapped, paging', hrun, ?_, hmax, hdone⟩
                  exact Nat.le_trans (Nat.le_add_right _ _) hgrows
      · rw [if_neg hmore]
        exact Or.inr ⟨true, heap.heapVirtMapped, heap.paging, rfl,
          Nat.le_refl _, hceiling, fun _ => Nat.le_of_not_lt hmore⟩

theorem ensureMapped_spec (hceiling : heap.heapVirtMapped ≤ heapMax) :
    ensureMapped heap stop = .error .panic ∨
      ∃ done mapped paging,
        ensureMapped heap stop = .ok (done, heap.remap mapped paging) ∧
        heap.heapVirtMapped ≤ mapped ∧ mapped ≤ heapMax ∧
        (done = true → stop ≤ mapped) := by
  apply ensureMappedLoop_spec hceiling
  simp only [heapMax, pageSize]
  omega

end EnsureMapped

section Extend

variable {mem : Mem} {blocks : List Block} {new : Block}

/-- A free block over the old epilogue, and a new epilogue behind it. -/
def extendMem (mem : Mem) (blocks : List Block) (new : Block) : Mem :=
  putWord (writeTags mem (firstBlock + span blocks) new)
    (firstBlock + span blocks + new.size) 1

theorem extendMem_below (mem : Mem) (blocks : List Block) (new : Block)
    {x : Nat} (hbelow : x < firstBlock + span blocks) :
    extendMem mem blocks new x = mem x := by
  rw [extendMem, putWord_of_outside _ _ (by omega),
    writeTags_of_outside _ _ (by omega)]

theorem Laid.extend (hlaid : Laid mem blocks)
    (hceiling : firstBlock + span blocks + new.size + 4 ≤ heapMax) :
    Laid (extendMem mem blocks new) (blocks ++ [new]) := by
  simp only [heapMax] at hceiling
  have hword : ∀ a, a + 4 ≤ firstBlock →
      getWord (extendMem mem blocks new) a = getWord mem a := by
    intro a hbelow
    apply getWord_congr
    intro x _ hhigh
    exact extendMem_below mem blocks new (by omega)
  constructor
  · rw [hword _ (by decide)]
    exact hlaid.prologueHeader
  · rw [hword _ (by decide)]
    exact hlaid.prologueFooter
  · apply (hlaid.tiles.concat_writeTags (by omega : new.size < 2 ^ 32)).congr
    intro x _ hhigh
    apply putWord_of_outside
    simp only [span_append, span_cons, span_nil] at hhigh
    omega
  · rw [span_append, span_cons, span_nil, Nat.add_zero, ← Nat.add_assoc]
    exact getWord_putWord _ (by decide)
  · rw [span_append, span_cons, span_nil, Nat.add_zero, ← Nat.add_assoc]
    exact hceiling

theorem keeps_extend (mem : Mem) (blocks : List Block) (new : Block) :
    Keeps (fun _ => True) firstBlock mem (extendMem mem blocks new) blocks
      (blocks ++ [new]) where
  block _ hat _ := at_append.mpr (Or.inl hat)
  byte _ hat _ _ _ hhigh :=
    extendMem_below mem blocks new (Nat.lt_of_lt_of_le hhigh hat.bounds.2)

end Extend

/-- An extension writes exactly the words of `extendMem`. -/
theorem extendMapped_eq {heap : Kheap} {blocks : List Block} {new : Block}
    (hbrk : heap.heapBrk = firstBlock + span blocks)
    (hfree : new.used = false)
    (hbound : firstBlock + span blocks + new.size + 4 < 2 ^ 32) :
    extendMapped heap new.size =
      ((coalesce (extendMem heap.mem blocks new)
          (firstBlock + span blocks + 4)).1,
        { heap with
          mem := (coalesce (extendMem heap.mem blocks new)
            (firstBlock + span blocks + 4)).2
          heapBrk := firstBlock + span blocks + new.size }) := by
  have hbp : u32 (firstBlock + span blocks + wsize) =
      firstBlock + span blocks + 4 := u32_of_lt (by simp only [wsize]; omega)
  have hend : u32 (firstBlock + span blocks + new.size) =
      firstBlock + span blocks + new.size := u32_of_lt (by omega)
  have htag : pack new.size 0 = new.tag := by
    rw [pack_zero, Block.tag_of_free hfree]
  have hheader := (tiles_writeTags heap.mem (firstBlock + span blocks)
    (by omega : new.size < 2 ^ 32)).1
  have hepilogue : pack 0 1 = 1 := rfl
  simp only [extendMapped, hbrk, hbp, hend, htag, putWord_ftrp hbound,
    nextBlkp_payload (getSize_of_tag hheader) hbound, hdrp_payload hbound,
    hepilogue, extendMem]

/-- The ways an extension by the free block `new` ends: it panics or reports
out of memory in the page mapper, or the new block is merged with a free one at
the end of the heap. -/
inductive ExtendOutcome (heap : Kheap) (blocks : List Block) (new : Block) :
    Except Halt (Nat × Kheap) → Prop
  | panic (hrun : ensureMapped heap (heap.heapBrk + new.size + 4) =
      .error .panic) : ExtendOutcome heap blocks new (.error .panic)
  | outOfMemory (mapped : Nat) (paging : Paging)
      (hrun : ensureMapped heap (heap.heapBrk + new.size + 4) =
        .ok (false, heap.remap mapped paging))
      (hshape : HeapShape (heap.remap mapped paging) blocks) :
      ExtendOutcome heap blocks new (.ok (0, heap.remap mapped paging))
  | extended (mapped : Nat) (paging : Paging) (bp : Nat) (heap' : Kheap)
      (pre : List Block) (free : Block) (post : List Block)
      (hrun : ensureMapped heap (heap.heapBrk + new.size + 4) =
        .ok (true, heap.remap mapped paging))
      (hshape : HeapShape heap' (pre ++ free :: post))
      (hmerges : Merges blocks new [] pre free post)
      (hfreeAt : FreeAt heap.mem heap'.mem blocks bp pre free post) :
      ExtendOutcome heap blocks new (.ok (bp, heap'))

theorem extendHeap_outcome {heap : Kheap} {blocks : List Block} {new : Block}
    (hshape : HeapShape heap blocks) (hfree : new.used = false)
    (hbound : heap.heapBrk + new.size + 4 < 2 ^ 32) :
    ExtendOutcome heap blocks new (extendHeap heap new.size) := by
  have hbrk := hshape.brk
  have hstop : u32 (heap.heapBrk + new.size + wsize) =
      heap.heapBrk + new.size + 4 := u32_of_lt hbound
  rcases @ensureMapped_spec heap (heap.heapBrk + new.size + 4) hshape.ceiling with
    hpanic | ⟨done, mapped, paging, hrun, hgrows, hmax, hdone⟩
  · have hextend : extendHeap heap new.size = .error .panic := by
      rw [extendHeap, hstop, hpanic]
      rfl
    exact hextend ▸ .panic hpanic
  · cases done with
    | false =>
        have hextend : extendHeap heap new.size =
            .ok (0, heap.remap mapped paging) := by
          rw [extendHeap, hstop, hrun]
          rfl
        exact hextend ▸ .outOfMemory mapped paging hrun
          (hshape.remap paging hgrows hmax)
    | true =>
        have hroom := Nat.le_trans (hdone rfl) hmax
        rw [hbrk] at hroom
        have hlaid : Laid (extendMem heap.mem blocks new) (blocks ++ [new]) :=
          hshape.laid.extend hroom
        obtain ⟨pre, free, post, hmerges, hfreeAt⟩ :=
          hlaid.coalesce_freeAt hfree hshape.coalesced List.isChain_nil
        have hextend : extendHeap heap new.size =
            .ok (extendMapped (heap.remap mapped paging) new.size) := by
          rw [extendHeap, hstop, hrun]
          rfl
        have hbrk' : (heap.remap mapped paging).heapBrk =
            firstBlock + span blocks := hbrk
        rw [hbrk] at hbound
        rw [hextend, extendMapped_eq hbrk' hfree hbound]
        refine .extended mapped paging _ _ pre free post hrun ?_ hmerges ?_
        · refine ⟨hfreeAt.laid, hfreeAt.coalesced, hshape.listp, ?_,
            hbrk ▸ hdone rfl, hmax⟩
          rw [hmerges.span_eq, span_append, span_cons, span_nil,
            ← Nat.add_assoc]
          rfl
        · refine ⟨hfreeAt.laid, hfreeAt.coalesced, hfreeAt.payload,
            hfreeAt.unused, ?_, ?_⟩
          · rw [hfreeAt.headers, usedHeaders_append]
            simp [usedHeaders, hfree]
          · exact (keeps_extend heap.mem blocks new).trans hfreeAt.keeps

/-- The first-fit walk over the blocks from `a` on, up to the epilogue. -/
theorem findFit_spec {mem : Mem} {asize a fuel : Nat} {blocks : List Block}
    (htiles : Tiles mem a blocks)
    (hepilogue : getWord mem (a + span blocks) = 1)
    (hbound : a + span blocks + 4 < 2 ^ 32) (hfuel : blocks.length < fuel) :
    (findFit mem asize fuel (a + 4) = .ok none ∧
      ∀ block ∈ blocks, block.used = true ∨ block.size < asize) ∨
    ∃ pre free post, blocks = pre ++ free :: post ∧
      findFit mem asize fuel (a + 4) = .ok (some (a + span pre + 4)) ∧
      free.used = false ∧ asize ≤ free.size ∧
      ∀ block ∈ pre, block.used = true ∨ block.size < asize := by
  induction blocks generalizing a fuel with
  | nil =>
      obtain ⟨fuel, rfl⟩ : ∃ n, fuel = n + 1 := ⟨fuel - 1, by simp at hfuel; omega⟩
      have hsize : getSize mem a = 0 := by
        rw [span_nil, Nat.add_zero] at hepilogue
        rw [getSize, hepilogue]
      rw [span_nil, Nat.add_zero] at hbound
      simp [findFit, hdrp_payload hbound, hsize]
  | cons block rest ih =>
      obtain ⟨fuel, rfl⟩ : ∃ n, fuel = n + 1 := ⟨fuel - 1, by simp at hfuel; omega⟩
      obtain ⟨hheader, _, hrest⟩ := htiles
      have hlarge := block.large
      have hsize := getSize_of_tag hheader
      rw [span_cons] at hbound hepilogue
      rw [findFit, hdrp_payload (by omega), hsize, getAlloc_of_tag hheader,
        if_neg (by omega)]
      by_cases hfit : block.used = false ∧ asize ≤ block.size
      · right
        refine ⟨[], block, rest, rfl, ?_, hfit.1, hfit.2, by simp⟩
        rw [if_pos (by simpa using hfit)]
        rfl
      · have hmiss : block.used = true ∨ block.size < asize := by
          rw [← Nat.not_le, ← Bool.not_eq_false]
          exact Decidable.not_and_iff_or_not.mp hfit
        rw [if_neg (by simpa using hfit), nextBlkp_payload hsize (by omega)]
        rcases ih hrest (by rwa [Nat.add_assoc]) (by omega)
            (by simpa using hfuel) with ⟨hnone, hall⟩ |
          ⟨pre, free, post, rfl, hsome, hfree, hfits, hbefore⟩
        · left
          exact ⟨hnone, List.forall_mem_cons.mpr ⟨hmiss, hall⟩⟩
        · right
          refine ⟨block :: pre, free, post, rfl, ?_, hfree, hfits,
            List.forall_mem_cons.mpr ⟨hmiss, hbefore⟩⟩
          rw [hsome, span_cons, Nat.add_assoc a]

section Sizes

variable {size : Nat}

theorem align_aligned (s : Nat) : align s % 8 = 0 :=
  Nat.mul_mod_left _ _

theorem align_bounds (hsize : size + 7 < 2 ^ 32) :
    size ≤ align size ∧ align size ≤ size + 7 := by
  simp only [align, dwsize]
  rw [u32_of_lt (by omega)]
  omega

theorem blockSize_aligned (hsize : size + 15 < 2 ^ 32) :
    blockSize size % 8 = 0 := by
  have hbounds := align_bounds (by omega : size + 7 < 2 ^ 32)
  have haligned := align_aligned size
  simp only [blockSize, minBlock, dwsize]
  rw [u32_of_lt (by omega)]
  omega

theorem blockSize_bounds (hsize : size + 15 < 2 ^ 32) :
    minBlock ≤ blockSize size ∧ size + 8 ≤ blockSize size ∧
      blockSize size ≤ size + 16 := by
  have hbounds := align_bounds (by omega : size + 7 < 2 ^ 32)
  simp only [blockSize, minBlock, dwsize]
  rw [u32_of_lt (by omega)]
  omega

/-- A block size is extended as it is, or by a page. -/
theorem extensionSize_eq (haligned : size % 8 = 0) (hsize : size + 7 < 2 ^ 32) :
    extensionSize size = max size pageSize := by
  have hbounds : max size pageSize ≤ extensionSize size ∧
      extensionSize size ≤ max size pageSize + 7 :=
    align_bounds (by simp only [pageSize]; omega)
  have hmultiple : extensionSize size % 8 = 0 := align_aligned _
  simp only [pageSize] at hbounds ⊢
  omega

/-- The block of the request, laid over the epilogue, ends below `2 ^ 32`
together with the new epilogue, so that no sum of `kmalloc` wraps. -/
def RequestFits (heap : Kheap) (size : Nat) : Prop :=
  heap.heapBrk + ((size + 7) / 8 * 8 + 8) + 4 < 2 ^ 32

instance (heap : Kheap) (size : Nat) : Decidable (RequestFits heap size) :=
  inferInstanceAs (Decidable (_ < _))

theorem blockSize_eq (hsize : size + 15 < 2 ^ 32) :
    blockSize size = max ((size + 7) / 8 * 8 + 8) minBlock := by
  have halign : align size = (size + 7) / 8 * 8 := by
    simp only [align, dwsize]
    rw [u32_of_lt (by omega)]
  rw [blockSize, halign, dwsize, u32_of_lt (by omega)]

end Sizes

theorem length_le_span (blocks : List Block) : blocks.length ≤ span blocks := by
  induction blocks with
  | nil => simp
  | cons block rest ih =>
      have hlarge := block.large
      rw [List.length_cons, span_cons]
      omega

/-- The ways `kmalloc` ends on a heap with the given blocks. -/
inductive KmallocOutcome (heap : Kheap) (blocks : List Block) (size : Nat) :
    Except Halt (Nat × Kheap) → Prop
  | panic : KmallocOutcome heap blocks size (.error .panic)
  | outOfMemory (mapped : Nat) (paging : Paging)
      (hshape : HeapShape (heap.remap mapped paging) blocks) :
      KmallocOutcome heap blocks size (.ok (0, heap.remap mapped paging))
  | served (bp : Nat) (heap' : Kheap) (pre : List Block) (block : Block)
      (post : List Block) (hshape : HeapShape heap' (pre ++ block :: post))
      (hallocated : Allocated heap.mem heap'.mem blocks bp pre block post)
      (hsize : size + 8 ≤ block.size) :
      KmallocOutcome heap blocks size (.ok (bp, heap'))

/-- Using a free block for `asize` bytes keeps the shape of the heap. -/
theorem FreeAt.place_shape {mem : Mem} {heap : Kheap}
    {blocks pre post : List Block} {bp asize : Nat} {free : Block}
    (hfreeAt : FreeAt mem heap.mem blocks bp pre free post)
    (hshape : HeapShape heap (pre ++ free :: post))
    (haligned : asize % 8 = 0) (hlarge : minBlock ≤ asize)
    (hfits : asize ≤ free.size) :
    ∃ block rest, Splits free asize block rest ∧
      HeapShape { heap with mem := Orion.place heap.mem bp asize }
        (pre ++ block :: (rest ++ post)) ∧
      Allocated mem (Orion.place heap.mem bp asize) blocks bp pre block
        (rest ++ post) := by
  obtain ⟨block, rest, hsplits, hallocated⟩ :=
    hfreeAt.place haligned hlarge hfits
  refine ⟨block, rest, hsplits, ?_, hallocated⟩
  refine ⟨hallocated.laid, hallocated.coalesced, hshape.listp, ?_,
    hshape.mapped, hshape.ceiling⟩
  have hspan := hsplits.span_eq hfits
  have htotal : span (pre ++ block :: (rest ++ post)) =
      span (pre ++ free :: post) := by
    simp only [span_append, span_cons, span_nil] at hspan ⊢
    omega
  rw [htotal]
  exact hshape.brk

theorem HeapShape.nextBlkp_listp {heap : Kheap} {blocks : List Block}
    (hshape : HeapShape heap blocks) :
    nextBlkp heap.mem heap.heapListp = firstBlock + 4 := by
  have hsize : getSize heap.mem (heapStart + 4) = 8 := by
    rw [getSize, hshape.laid.prologueHeader]
  rw [hshape.listp]
  exact nextBlkp_payload hsize (by decide)

section KmallocEquations

variable {heap heap' : Kheap} {size bp : Nat}

theorem kmalloc_of_fit (hpos : 0 < size)
    (hfit : findFit heap.mem (blockSize size) heap.heapBrk
      (nextBlkp heap.mem heap.heapListp) = .ok (some bp)) :
    kmalloc heap size =
      .ok (bp, { heap with mem := place heap.mem bp (blockSize size) }) := by
  simp only [kmalloc, if_neg (Nat.ne_of_gt hpos), hfit]
  rfl

variable (hpos : 0 < size)
  (hmiss : findFit heap.mem (blockSize size) heap.heapBrk
    (nextBlkp heap.mem heap.heapListp) = .ok none)

include hpos hmiss

theorem kmalloc_of_error {halt : Halt}
    (hextend : extendHeap heap (extensionSize (blockSize size)) =
      .error halt) : kmalloc heap size = .error halt := by
  simp only [kmalloc, if_neg (Nat.ne_of_gt hpos), hmiss, bind, Except.bind,
    hextend]

theorem kmalloc_of_full
    (hextend : extendHeap heap (extensionSize (blockSize size)) =
      .ok (0, heap')) : kmalloc heap size = .ok (0, heap') := by
  simp only [kmalloc, if_neg (Nat.ne_of_gt hpos), hmiss, bind, Except.bind,
    hextend, ↓reduceIte]
  rfl

theorem kmalloc_of_extended (hbp : bp ≠ 0)
    (hextend : extendHeap heap (extensionSize (blockSize size)) =
      .ok (bp, heap')) :
    kmalloc heap size =
      .ok (bp, { heap' with mem := place heap'.mem bp (blockSize size) }) := by
  simp only [kmalloc, if_neg (Nat.ne_of_gt hpos), hmiss, bind, Except.bind,
    hextend, if_neg hbp]
  rfl

end KmallocEquations

section Request

variable {heap : Kheap} {blocks : List Block} {size : Nat}

theorem RequestFits.size_lt (hfits : RequestFits heap size)
    (hshape : HeapShape heap blocks) : size + 15 < 2 ^ 32 := by
  have hbrk := hshape.brk
  have hfirst : firstBlock = 0x0100000C := rfl
  unfold RequestFits at hfits
  omega

/-- Requests up to `2 ^ 31` and a page fit below every epilogue. -/
theorem HeapShape.requestFits (hshape : HeapShape heap blocks)
    (hsmall : size < 2 ^ 31 + 2 ^ 13) : RequestFits heap size := by
  have hbrk := hshape.brk
  have hceiling := hshape.laid.ceiling
  simp only [heapMax] at hceiling
  unfold RequestFits
  omega

/-- The walk of a request: the first free block that is large enough, if there
is one. -/
theorem HeapShape.findFit_cases (hshape : HeapShape heap blocks)
    (asize : Nat) :
    (findFit heap.mem asize heap.heapBrk (nextBlkp heap.mem heap.heapListp) =
        .ok none ∧
      ∀ block ∈ blocks, block.used = true ∨ block.size < asize) ∨
    ∃ pre free post, blocks = pre ++ free :: post ∧
      findFit heap.mem asize heap.heapBrk (nextBlkp heap.mem heap.heapListp) =
        .ok (some (firstBlock + span pre + 4)) ∧
      free.used = false ∧ asize ≤ free.size ∧
      ∀ block ∈ pre, block.used = true ∨ block.size < asize := by
  have hceiling := hshape.laid.ceiling
  simp only [heapMax] at hceiling
  have hfuel : blocks.length < heap.heapBrk := by
    have hlength := length_le_span blocks
    have hfirst : 0 < firstBlock := by decide
    have hbrk := hshape.brk
    omega
  rw [hshape.nextBlkp_listp]
  exact findFit_spec hshape.laid.tiles hshape.laid.epilogue (by omega) hfuel

/-- A request that a free block serves. -/
theorem kmalloc_served {pre post : List Block} {free : Block}
    (hshape : HeapShape heap (pre ++ free :: post)) (hpos : 0 < size)
    (hsize : size + 15 < 2 ^ 32) (hunused : free.used = false)
    (hfit : blockSize size ≤ free.size)
    (hwalk : findFit heap.mem (blockSize size) heap.heapBrk
      (nextBlkp heap.mem heap.heapListp) =
        .ok (some (firstBlock + span pre + 4))) :
    ∃ block rest mem, Splits free (blockSize size) block rest ∧
      kmalloc heap size =
        .ok (firstBlock + span pre + 4, { heap with mem := mem }) ∧
      HeapShape { heap with mem := mem } (pre ++ block :: (rest ++ post)) ∧
      Allocated heap.mem mem (pre ++ free :: post)
        (firstBlock + span pre + 4) pre block (rest ++ post) := by
  have hfreeAt : FreeAt heap.mem heap.mem (pre ++ free :: post)
      (firstBlock + span pre + 4) pre free post :=
    ⟨hshape.laid, hshape.coalesced, rfl, hunused, rfl, Keeps.refl _ _ _ _⟩
  obtain ⟨block, rest, hsplits, hshape', hallocated⟩ :=
    hfreeAt.place_shape hshape (blockSize_aligned hsize)
      (blockSize_bounds hsize).1 hfit
  exact ⟨block, rest, _, hsplits, kmalloc_of_fit hpos hwalk, hshape',
    hallocated⟩

/-- How the heap grows for a block of `asize` bytes. -/
def newBlock (asize : Nat) (haligned : asize % 8 = 0) : Block :=
  ⟨max asize pageSize, false, by simp only [pageSize]; omega,
    by simp only [pageSize]; omega⟩

/-- The ways a request ends that no free block serves. -/
inductive GrowOutcome (heap : Kheap) (blocks : List Block) (asize : Nat)
    (new : Block) : Except Halt (Nat × Kheap) → Prop
  | panic (hrun : ensureMapped heap (heap.heapBrk + new.size + 4) =
      .error .panic) : GrowOutcome heap blocks asize new (.error .panic)
  | outOfMemory (mapped : Nat) (paging : Paging)
      (hrun : ensureMapped heap (heap.heapBrk + new.size + 4) =
        .ok (false, heap.remap mapped paging))
      (hshape : HeapShape (heap.remap mapped paging) blocks) :
      GrowOutcome heap blocks asize new (.ok (0, heap.remap mapped paging))
  | served (mapped : Nat) (paging : Paging) (bp : Nat) (heap' : Kheap)
      (pre : List Block) (free block : Block) (rest : List Block)
      (hrun : ensureMapped heap (heap.heapBrk + new.size + 4) =
        .ok (true, heap.remap mapped paging))
      (hmerges : Merges blocks new [] pre free [])
      (hsplits : Splits free asize block rest)
      (hshape : HeapShape heap' (pre ++ block :: rest))
      (hallocated : Allocated heap.mem heap'.mem blocks bp pre block rest) :
      GrowOutcome heap blocks asize new (.ok (bp, heap'))

theorem Merges.post_eq_nil {pre pre' post : List Block} {block merged : Block}
    (hmerges : Merges pre block [] pre' merged post) : post = [] := by
  cases hmerges <;> rfl

/-- A request that no free block serves. -/
theorem kmalloc_grown (hshape : HeapShape heap blocks) (hpos : 0 < size)
    (hfits : RequestFits heap size)
    (hwalk : findFit heap.mem (blockSize size) heap.heapBrk
      (nextBlkp heap.mem heap.heapListp) = .ok none)
    {asize : Nat} (hasize : blockSize size = asize)
    (haligned : asize % 8 = 0) :
    GrowOutcome heap blocks asize (newBlock asize haligned)
      (kmalloc heap size) := by
  subst hasize
  have hsize := hfits.size_lt hshape
  have hlarge := (blockSize_bounds hsize).1
  have hgrow : extensionSize (blockSize size) =
      (newBlock (blockSize size) haligned).size :=
    extensionSize_eq haligned (by
      rw [blockSize_eq hsize, minBlock, dwsize]
      omega)
  have hbound : heap.heapBrk + (newBlock (blockSize size) haligned).size + 4 <
      2 ^ 32 := by
    have hbrk := hshape.brk
    have hceiling := hshape.laid.ceiling
    simp only [newBlock, blockSize_eq hsize, minBlock, dwsize, pageSize,
      heapMax] at hceiling ⊢
    unfold RequestFits at hfits
    omega
  have houtcome := extendHeap_outcome hshape rfl hbound
  rw [← hgrow] at houtcome
  generalize hextend : extendHeap heap (extensionSize (blockSize size)) =
    outcome at houtcome
  cases houtcome with
  | panic hrun =>
      rw [kmalloc_of_error hpos hwalk hextend]
      exact .panic hrun
  | outOfMemory mapped paging hrun hshape' =>
      rw [kmalloc_of_full hpos hwalk hextend]
      exact .outOfMemory mapped paging hrun hshape'
  | extended mapped paging bp heap' pre free post hrun hshape' hmerges hfreeAt =>
      obtain rfl := hmerges.post_eq_nil
      have hfit : blockSize size ≤ free.size :=
        Nat.le_trans (Nat.le_max_left _ _) hmerges.size_le
      obtain ⟨block, rest, hsplits, hshape'', hallocated⟩ :=
        hfreeAt.place_shape hshape' haligned hlarge hfit
      have hbp : bp ≠ 0 := by
        rw [hfreeAt.payload]
        omega
      rw [kmalloc_of_extended hpos hwalk hbp hextend]
      rw [List.append_nil] at hshape'' hallocated
      exact .served mapped paging bp _ pre free block rest hrun hmerges hsplits
        hshape'' hallocated

theorem kmalloc_outcome (hshape : HeapShape heap blocks) (hpos : 0 < size)
    (hfits : RequestFits heap size) :
    KmallocOutcome heap blocks size (kmalloc heap size) := by
  have hsize := hfits.size_lt hshape
  have hroom := (blockSize_bounds hsize).2.1
  rcases hshape.findFit_cases (blockSize size) with
    ⟨hnone, _⟩ | ⟨pre, free, post, rfl, hsome, hfree, hfit, _⟩
  · have hgrown := kmalloc_grown hshape hpos hfits hnone rfl
      (blockSize_aligned hsize)
    generalize kmalloc heap size = outcome at hgrown ⊢
    cases hgrown with
    | panic _ => exact .panic
    | outOfMemory mapped paging _ hshape' =>
        exact .outOfMemory mapped paging hshape'
    | served mapped paging bp heap' pre free block rest _ hmerges hsplits hshape'
        hallocated =>
        have hfit : blockSize size ≤ free.size :=
          Nat.le_trans (Nat.le_max_left _ _) hmerges.size_le
        exact .served _ _ _ _ _ hshape' hallocated
          (Nat.le_trans hroom (hsplits.fits hfit))
  · obtain ⟨block, rest, mem, hsplits, hrun, hshape', hallocated⟩ :=
      kmalloc_served hshape hpos hsize hfree hfit hsome
    rw [hrun]
    exact .served _ _ _ _ _ hshape' hallocated
      (Nat.le_trans hroom (hsplits.fits hfit))

end Request

/-- Freeing a block in use leaves the other blocks alone and takes exactly its
header out of the list of used headers. -/
theorem kfree_shape {heap : Kheap} {pre post : List Block} {block : Block}
    (hshape : HeapShape heap (pre ++ block :: post))
    (hused : block.used = true) :
    ∃ blocks, HeapShape (kfree heap (firstBlock + span pre + 4)) blocks ∧
      blocks ≠ [] ∧
      (usedHeaders firstBlock (pre ++ block :: post)).Perm
        ((firstBlock + span pre) :: usedHeaders firstBlock blocks) ∧
      Keeps (fun header => header ≠ firstBlock + span pre) firstBlock heap.mem
        (kfree heap (firstBlock + span pre + 4)).mem
        (pre ++ block :: post) blocks := by
  have hlaid := hshape.laid
  have hbound := hlaid.bound
  simp only [heapMax] at hbound
  let free : Block := ⟨block.size, false, block.aligned, block.large⟩
  have htag : pack block.size 0 = free.tag := pack_zero _
  have hold : pre ++ block :: post = pre ++ [block] ++ post := by simp
  have hnew : pre ++ free :: post = pre ++ [free] ++ post := by simp
  have hspan : span [free] = span [block] := rfl
  -- marking the block free writes both its tags
  have hmark : kfree heap (firstBlock + span pre + 4) = { heap with
      mem := (coalesce (writeTags heap.mem (firstBlock + span pre) free)
        (firstBlock + span pre + 4)).2 } := by
    rw [kfree, if_neg (by omega)]
    simp only [hdrp_payload (by omega : firstBlock + span pre + 4 < 2 ^ 32),
      getSize_of_tag hlaid.tags.1, htag,
      putWord_ftrp (by simp only [free]; omega :
        firstBlock + span pre + free.size + 4 < 2 ^ 32)]
  obtain ⟨hpre, hpost, _⟩ := coalesced_append_cons.mp hshape.coalesced
  have hfreed : Laid (writeTags heap.mem (firstBlock + span pre) free)
      (pre ++ free :: post) := by
    rw [hnew]
    exact (hold ▸ hlaid).writeTags rfl
  have hkeeps : Keeps (fun header => header ≠ firstBlock + span pre) firstBlock
      heap.mem (writeTags heap.mem (firstBlock + span pre) free)
      (pre ++ block :: post) (pre ++ free :: post) := by
    rw [hold, hnew]
    apply keeps_splice hspan
    · intro x houtside
      exact writeTags_of_outside heap.mem free (by simpa using houtside)
    · intro header _ hat _ hne
      exact hne (at_singleton hat)
  obtain ⟨pre', merged, post', hmerges, hfreeAt⟩ :=
    hfreed.coalesce_freeAt rfl hpre hpost
  rw [hmark]
  refine ⟨pre' ++ merged :: post', ?_, by simp, ?_, ?_⟩
  · refine ⟨hfreeAt.laid, hfreeAt.coalesced, hshape.listp, ?_, hshape.mapped,
      hshape.ceiling⟩
    rw [hmerges.span_eq, hnew, span_append, span_append, hspan, ← span_append,
      ← span_append, ← hold]
    exact hshape.brk
  · rw [hfreeAt.headers, hold, hnew]
    simp only [usedHeaders_append, usedHeaders, hused, free, ↓reduceIte,
      Bool.false_eq_true, List.append_assoc, List.singleton_append]
    exact List.perm_middle
  · exact hkeeps.trans (hfreeAt.keeps.mono fun _ _ => trivial)

/-- A write between the tags of one block keeps the shape of the heap and all
other blocks. -/
theorem HeapShape.payload_write {heap : Kheap} {blocks : List Block}
    {header : Nat} {block : Block} (mem : Mem)
    (hshape : HeapShape heap blocks) (hat : At firstBlock blocks header block)
    (hagree : ∀ x, x < header + 4 ∨ header + block.size - 4 ≤ x →
      mem x = heap.mem x) :
    HeapShape { heap with mem := mem } blocks ∧
      Keeps (fun other => other ≠ header) firstBlock heap.mem mem blocks
        blocks := by
  obtain ⟨pre, post, rfl, rfl⟩ := hat.split
  have hlist : pre ++ block :: post = pre ++ [block] ++ post := by simp
  have hlarge := block.large
  have houtside : ∀ x, x < firstBlock + span pre ∨
      firstBlock + span pre + span [block] ≤ x → mem x = heap.mem x := by
    intro x hx
    rw [span_cons, span_nil] at hx
    exact hagree x (by omega)
  have hlaid := hshape.laid
  rw [hlist] at hlaid
  have htiles := hlaid.tiles
  rw [tiles_append, tiles_append] at htiles
  constructor
  · refine ⟨?_, hshape.coalesced, hshape.listp, hshape.brk, hshape.mapped,
      hshape.ceiling⟩
    rw [hlist]
    exact hlaid.splice rfl (htiles.1.2.congr_payload hagree) houtside
  · rw [hlist]
    apply keeps_splice rfl houtside
    intro other _ hat' _ hne
    exact hne (at_singleton hat')

/-- The words `kheap_init` writes before its first extension. -/
def initMem (mem : Mem) : Mem :=
  putWord (putWord (putWord (putWord mem heapStart 0) (heapStart + 4) 9)
    (heapStart + 8) 9) (heapStart + 12) 1

theorem laid_initMem (mem : Mem) : Laid (initMem mem) [] where
  prologueHeader := by
    rw [initMem, getWord_putWord_of_disjoint _ _ (by decide),
      getWord_putWord_of_disjoint _ _ (by decide), getWord_putWord _ (by decide)]
  prologueFooter := by
    rw [initMem, getWord_putWord_of_disjoint _ _ (by decide),
      getWord_putWord _ (by decide)]
  tiles := trivial
  epilogue := getWord_putWord _ (by decide)
  ceiling := by decide

theorem layOut_shape (heap : Kheap) (paging : Paging) :
    HeapShape (layOut heap paging) [] where
  laid := laid_initMem heap.mem
  coalesced := List.isChain_nil
  listp := rfl
  brk := rfl
  mapped := by simp [layOut, heapStart, wsize, pageSize]
  ceiling := by simp [layOut, heapStart, pageSize, heapMax]

/-- A heap that has booted has a free block and no block in use. -/
theorem kheapInit_shape {boot heap : Kheap} (hinit : kheapInit boot = .ok heap) :
    ∃ blocks, HeapShape heap blocks ∧ blocks ≠ [] ∧
      usedHeaders firstBlock blocks = [] := by
  have hsize : max (align heapInitial) minBlock = 65536 := by decide
  rcases hframe : pmmAllocFrame boot.paging.pmm with ⟨phys, pmm⟩
  simp only [kheapInit, hsize, hframe] at hinit
  by_cases hphys : phys = 0
  · simp [hphys] at hinit
  · simp only [hphys, ↓reduceIte] at hinit
    cases hmap : vmmMapPage { boot.paging with pmm := pmm } heapStart phys
        vmmKernelRw with
    | none => simp [hmap] at hinit
    | some paging =>
        simp only [hmap] at hinit
        let new : Block := ⟨65536, false, by decide, by decide⟩
        have houtcome : ExtendOutcome (layOut boot paging) [] new
            (extendHeap (layOut boot paging) 65536) :=
          extendHeap_outcome (layOut_shape boot paging) rfl (by
            simp only [layOut, heapStart, wsize, new]
            decide)
        generalize extendHeap (layOut boot paging) 65536 = outcome at *
        cases houtcome with
        | panic _ => simp at hinit
        | outOfMemory _ _ _ _ => simp at hinit
        | extended _ _ bp heap' pre free post _ hshape _ hfreeAt =>
            simp only at hinit
            split_ifs at hinit with hnull
            cases hinit
            exact ⟨_, hshape, by simp, hfreeAt.headers⟩

end Orion
