/-
Requests in detail.  A request takes the first free block that is large
enough and leaves the rest of it as one free block; a page-aligned one finds
its way back to that block through the word before its pointer, whatever
happens to the heap in between.
-/
import Orion.KheapInvariant

namespace Orion

open MachineInt ByteMem BoundaryTag

/-- The states clients can reach with requests whose sums do not wrap. -/
def HeapReached (heap : Kheap) (sys : HeapSystem) : Prop :=
  ∃ calls, Machine.exec (Machine.guarded HeapSystem.fits HeapSystem.serve)
    ⟨heap, []⟩ calls = some sys

/-- The size of the block that serves `size` bytes. -/
def servingSize (size : Nat) : Nat := max 16 ((size + 7) / 8 * 8 + 8)

section Reached

variable {boot heap : Kheap} {sys : HeapSystem}

theorem HeapReached.inv (hinit : kheapInit boot = .ok heap)
    (hreached : HeapReached heap sys) : ∃ blocks, HeapInv sys blocks := by
  obtain ⟨calls, hrun⟩ := hreached
  have hstep : ∀ sys call next, (∃ blocks, HeapInv sys blocks) →
      Machine.guarded HeapSystem.fits HeapSystem.serve sys call = some next →
        ∃ blocks, HeapInv next blocks := by
    rintro sys call next ⟨blocks, hinv⟩ hstep
    obtain ⟨hfits, hserve⟩ := Machine.guarded_eq_some.mp hstep
    obtain ⟨blocks', hinv', _⟩ := heap_serve_inv hinv hfits hserve
    exact ⟨blocks', hinv'⟩
  exact Machine.exec_invariant hstep (kheapInit_inv hinit) hrun

/-- Requests up to `2 ^ 31` bytes reach nothing else. -/
theorem heapReached_of_step {calls : List HeapCall}
    (hinit : kheapInit boot = .ok heap)
    (hrun : Machine.exec HeapSystem.step ⟨heap, []⟩ calls = some sys) :
    HeapReached heap sys := by
  have hstep : ∀ sys call next,
      (HeapReached heap sys ∧ ∃ blocks, HeapInv sys blocks) →
        HeapSystem.step sys call = some next →
          HeapReached heap next ∧ ∃ blocks, HeapInv next blocks := by
    rintro sys call next ⟨⟨past, hpast⟩, blocks, hinv⟩ hstep
    have hserve := Machine.guarded_eq_some.mpr (hinv.step_serves hstep)
    exact ⟨⟨past ++ [call], Machine.exec_append hpast
      ((Machine.exec_cons_eq_some _).mpr ⟨next, hserve, rfl⟩)⟩,
      heap_step_inv ⟨blocks, hinv⟩ hstep⟩
  exact (Machine.exec_invariant hstep ⟨⟨[], rfl⟩, kheapInit_inv hinit⟩ hrun).1

end Reached

theorem blockSize_eq_servingSize {size : Nat} (hsize : size + 15 < 2 ^ 32) :
    blockSize size = servingSize size := by
  rw [blockSize_eq hsize, servingSize, Nat.max_comm]
  rfl

theorem servingSize_aligned (size : Nat) : servingSize size % 8 = 0 := by
  simp only [servingSize]
  omega

/-- The lowest free block of at least `asize` bytes. -/
structure FirstFit (blocks : List Block) (asize : Nat) (pre : List Block)
    (free : Block) (post : List Block) : Prop where
  here : blocks = pre ++ free :: post
  unused : free.used = false
  fits : asize ≤ free.size
  before : ∀ block ∈ pre, block.used = true ∨ block.size < asize

theorem FirstFit.unique {blocks pre pre' post post' : List Block} {asize : Nat}
    {free free' : Block} (hfit : FirstFit blocks asize pre free post)
    (hfit' : FirstFit blocks asize pre' free' post') :
    pre = pre' ∧ free = free' ∧ post = post' := by
  have hmiss : ∀ {block : Block}, block.used = false → asize ≤ block.size →
      ¬ (block.used = true ∨ block.size < asize) := by
    rintro block hunused hfits (hused | hsmall)
    · rw [hunused] at hused
      contradiction
    · omega
  rcases List.append_eq_append_iff.mp (hfit.here.symm.trans hfit'.here) with
    ⟨tail, rfl, htail⟩ | ⟨tail, rfl, htail⟩
  · cases tail with
    | nil =>
        rw [List.nil_append, List.cons.injEq] at htail
        exact ⟨(List.append_nil pre).symm, htail⟩
    | cons first rest =>
        obtain ⟨rfl, -⟩ := List.cons.inj htail
        exact absurd (hfit'.before free (by simp)) (hmiss hfit.unused hfit.fits)
  · cases tail with
    | nil =>
        rw [List.nil_append, List.cons.injEq] at htail
        exact ⟨List.append_nil pre', htail.1.symm, htail.2.symm⟩
    | cons first rest =>
        obtain ⟨rfl, -⟩ := List.cons.inj htail
        exact absurd (hfit.before free' (by simp))
          (hmiss hfit'.unused hfit'.fits)

section FirstFit

variable {heap : Kheap} {blocks : List Block} {size : Nat}

/-- The walk of a request finds the first fit. -/
theorem FirstFit.findFit {pre post : List Block} {free : Block} {asize : Nat}
    (hshape : HeapShape heap blocks)
    (hfit : FirstFit blocks asize pre free post) :
    findFit heap.mem asize heap.heapBrk (nextBlkp heap.mem heap.heapListp) =
      .ok (some (firstBlock + span pre + 4)) := by
  rcases hshape.findFit_cases asize with
    ⟨-, hnone⟩ | ⟨pre', free', post', hblocks, hsome, hunused, hfits, hbefore⟩
  · have hfree := hnone free (by rw [hfit.here]; simp)
    rw [hfit.unused] at hfree
    have hle := hfit.fits
    rcases hfree with hused | hsmall
    · contradiction
    · omega
  · obtain ⟨rfl, -, -⟩ := hfit.unique ⟨hblocks, hunused, hfits, hbefore⟩
    exact hsome

theorem FirstFit.kmalloc {pre post : List Block} {free : Block}
    (hshape : HeapShape heap blocks) (hpos : 0 < size)
    (hsize : size + 15 < 2 ^ 32)
    (hfit : FirstFit blocks (servingSize size) pre free post) :
    ∃ block rest mem, Splits free (servingSize size) block rest ∧
      Orion.kmalloc heap size =
        .ok (firstBlock + span pre + 4, { heap with mem := mem }) ∧
      HeapShape { heap with mem := mem } (pre ++ block :: (rest ++ post)) := by
  have hwalk := hfit.findFit hshape
  rw [← blockSize_eq_servingSize hsize] at hwalk
  have hfits := hfit.fits
  rw [← blockSize_eq_servingSize hsize] at hfits ⊢
  rw [hfit.here] at hshape
  obtain ⟨block, rest, mem, hsplits, hrun, hshape', -⟩ :=
    kmalloc_served hshape hpos hsize hfit.unused hfits hwalk
  exact ⟨block, rest, mem, hsplits, hrun, hshape'⟩

theorem kmalloc_of_no_fit (hshape : HeapShape heap blocks) (hpos : 0 < size)
    (hfits : RequestFits heap size)
    (hnone : ∀ block ∈ blocks,
      block.used = true ∨ block.size < servingSize size) :
    GrowOutcome heap blocks (servingSize size)
      (newBlock (servingSize size) (servingSize_aligned size))
      (kmalloc heap size) := by
  have hsize := hfits.size_lt hshape
  rcases hshape.findFit_cases (blockSize size) with
    ⟨hwalk, -⟩ | ⟨pre, free, post, rfl, -, hunused, hfit, -⟩
  · exact kmalloc_grown hshape hpos hfits hwalk
      (blockSize_eq_servingSize hsize) (servingSize_aligned size)
  · have hfree := hnone free (by simp)
    rw [← blockSize_eq_servingSize hsize, hunused] at hfree
    rcases hfree with hused | hsmall
    · contradiction
    · omega

end FirstFit

/-- In every reachable state the walk of a request ends; the lowest free block
that is large enough is used, with `heap_brk` as it was and the rest of the
block split off when it can stand alone; only when there is none the heap
grows, and then the block at its end, merged with the new one, is used in the
same way. -/
theorem kheap_run_first_fit (boot heap : Kheap)
    (hinit : kheapInit boot = .ok heap) (sys : HeapSystem)
    (hreached : HeapReached heap sys) :
    ∃ blocks, HeapShape sys.heap blocks ∧
      ∀ size, 1 ≤ size → size ≤ 2 ^ 31 →
        (∃ found, findFit sys.heap.mem (blockSize size) sys.heap.heapBrk
          (nextBlkp sys.heap.mem sys.heap.heapListp) = .ok found) ∧
        (∀ pre free post,
          FirstFit blocks (servingSize size) pre free post →
          ∃ heap' block rest,
            kmalloc sys.heap size = .ok (firstBlock + span pre + 4, heap') ∧
            heap'.heapBrk = sys.heap.heapBrk ∧
            Splits free (servingSize size) block rest ∧
            HeapShape heap' (pre ++ block :: (rest ++ post))) ∧
        ((∀ block ∈ blocks,
            block.used = true ∨ block.size < servingSize size) →
          GrowOutcome sys.heap blocks (servingSize size)
            (newBlock (servingSize size) (servingSize_aligned size))
            (kmalloc sys.heap size)) := by
  obtain ⟨blocks, hinv⟩ := hreached.inv hinit
  have hshape := hinv.shape
  refine ⟨blocks, hshape, fun size hpos hsmall => ⟨?_, ?_, ?_⟩⟩
  · rcases hshape.findFit_cases (blockSize size) with
      ⟨hnone, -⟩ | ⟨_, _, _, -, hsome, -⟩
    · exact ⟨none, hnone⟩
    · exact ⟨_, hsome⟩
  · intro pre free post hfit
    obtain ⟨block, rest, mem, hsplits, hrun, hshape'⟩ :=
      hfit.kmalloc hshape hpos (by omega)
    exact ⟨_, block, rest, hrun, rfl, hsplits, hshape'⟩
  · exact kmalloc_of_no_fit hshape hpos (hshape.requestFits (by omega))

/-- The layout of the heap has no history: in every reachable state the blocks of
the live pointers are in use, and what lies between them, up to `heap_brk`, is
one free block each. -/
theorem kheap_run_layout (boot heap : Kheap)
    (hinit : kheapInit boot = .ok heap) (sys : HeapSystem)
    (hreached : HeapReached heap sys) :
    ∃ blocks headers, HeapShape sys.heap blocks ∧
      headers.Pairwise (· < ·) ∧
      (sys.live.map fun entry => entry.raw sys.heap.mem - 4).Perm headers ∧
      blocks.map (fun block => (block.size, block.used)) =
        fillGaps (getSize sys.heap.mem) sys.heap.heapBrk firstBlock headers := by
  obtain ⟨blocks, hinv⟩ := hreached.inv hinit
  have hshape := hinv.shape
  refine ⟨blocks, _, hshape, usedHeaders_sorted _ blocks, hinv.headers, ?_⟩
  rw [hshape.brk]
  exact hshape.coalesced.eq_fillGaps hshape.laid.tiles

section Aligned

variable {sys next : HeapSystem} {blocks blocks' : List Block} {entry : Live}
  {header : Nat} {block : Block}

/-- The block behind a new pointer was not in use before. -/
theorem HeapInv.header_fresh {heap' : Kheap} (hinv : HeapInv sys blocks)
    (hinv' : HeapInv ⟨heap', entry :: sys.live⟩ blocks')
    (hretains : Retains sys ⟨heap', entry :: sys.live⟩ blocks blocks')
    (hserves : Serves heap'.mem blocks' entry header block) :
    header ∉ usedHeaders firstBlock blocks := by
  intro hmem
  obtain ⟨other, hother, heq⟩ := List.mem_map.mp (hinv.headers.mem_iff.mpr hmem)
  obtain ⟨header', block', hserves'⟩ := hinv.serves other hother
  have hheader : header' = header := by
    rw [hserves'.raw] at heq
    omega
  subst hheader
  have hkept := hretains other hother (List.mem_cons_of_mem entry hother) _ _
    hserves'
  have hsame := hinv'.entry_unique (List.mem_cons_of_mem entry hother)
    List.mem_cons_self hkept hserves
  exact (List.nodup_cons.mp hinv'.live_nodup).1 (hsame ▸ hother)

/-- The calls that do not free the aligned pointer `ptr`. -/
def HeapCall.spares (ptr : Nat) : HeapCall → Bool
  | .kfreeAligned other => other ≠ ptr
  | _ => true

/-- An aligned pointer stays live until it is freed. -/
theorem HeapSystem.serve_live {call : HeapCall} (hentry : entry ∈ sys.live)
    (hkind : entry.kind = .aligned) (hspares : call.spares entry.ptr = true)
    (hstep : sys.serve call = some next) : entry ∈ next.live := by
  have hrecord : ∀ size kind result,
      entry ∈ (sys.record size kind result).live := by
    intro size kind result
    simp only [HeapSystem.record]
    split
    · exact hentry
    · exact List.mem_cons_of_mem _ hentry
  cases call with
  | kmalloc size =>
      obtain ⟨result, -, rfl⟩ := Option.map_eq_some_iff.mp hstep
      exact hrecord size .plain result
  | kmallocAligned size =>
      simp only [HeapSystem.serve] at hstep
      obtain ⟨result, -, rfl⟩ := Option.map_eq_some_iff.mp hstep
      exact hrecord size .aligned result
  | kfree ptr =>
      obtain ⟨other, hholder, rfl⟩ := Option.map_eq_some_iff.mp hstep
      obtain ⟨-, -, hplain⟩ := HeapSystem.holder_eq_some hholder
      refine (List.mem_erase_of_ne ?_).mpr hentry
      rintro rfl
      rw [hkind] at hplain
      contradiction
  | kfreeAligned ptr =>
      obtain ⟨other, hholder, rfl⟩ := Option.map_eq_some_iff.mp hstep
      obtain ⟨-, hptr, -⟩ := HeapSystem.holder_eq_some hholder
      refine (List.mem_erase_of_ne ?_).mpr hentry
      rintro rfl
      exact of_decide_eq_true hspares hptr.symm
  | store addr value =>
      simp only [HeapSystem.serve, HeapSystem.step] at hstep
      split_ifs at hstep
      cases hstep
      exact hentry
  | repage paging =>
      cases hstep
      exact hentry

/-- Freeing an aligned pointer takes the block that serves it out of use, and
no other. -/
theorem HeapInv.kfreeAligned_frees (hinv : HeapInv sys blocks)
    (hentry : entry ∈ sys.live) (hkind : entry.kind = .aligned)
    (hserves : Serves sys.heap.mem blocks entry header block) :
    ∃ after, HeapShape (kfreeAligned sys.heap entry.ptr) after ∧
      (usedHeaders firstBlock blocks).Perm
        (header :: usedHeaders firstBlock after) ∧
      ∀ other block', At firstBlock blocks other block' →
        block'.used = true → other ≠ header →
          At firstBlock after other block' := by
  rw [hinv.kfreeAligned_eq hentry hkind, hserves.raw]
  have hshape := hinv.shape
  obtain ⟨pre, post, rfl, rfl⟩ := hserves.here.split
  obtain ⟨after, hshape', -, hheaders, hkeeps⟩ :=
    kfree_shape hshape hserves.used
  exact ⟨after, hshape', hheaders,
    fun _ _ hat hused hne => hkeeps.block hne hat hused⟩

theorem kmallocAligned_multiple {heap heap' : Kheap} {size p : Nat}
    (hrun : kmallocAligned heap size = .ok (p, heap')) : p % pageSize = 0 := by
  unfold kmallocAligned at hrun
  cases hraw : kmalloc heap (u32 (size + pageSize + 4)) with
  | error halt =>
      rw [hraw] at hrun
      cases hrun
  | ok result =>
      rw [hraw, Except.map, Except.ok.injEq, storeBackPointer] at hrun
      split at hrun
      · obtain ⟨rfl, -⟩ := Prod.mk.inj hrun
        rfl
      · obtain ⟨rfl, -⟩ := Prod.mk.inj hrun
        exact Nat.mul_mod_left _ _

end Aligned

/-- The states in which the aligned pointer `ptr` has not been freed. -/
def HeapReachedSparing (ptr : Nat) (sys last : HeapSystem) : Prop :=
  ∃ calls, Machine.exec (Machine.guarded
    (fun sys call => sys.fits call && call.spares ptr) HeapSystem.serve) sys
    calls = some last

theorem HeapReachedSparing.serves {sys last : HeapSystem} {entry : Live}
    {header : Nat} {block : Block} (hkind : entry.kind = .aligned)
    (hentry : entry ∈ sys.live)
    (hserves : ∃ blocks, HeapInv sys blocks ∧
      Serves sys.heap.mem blocks entry header block)
    (hreached : HeapReachedSparing entry.ptr sys last) :
    entry ∈ last.live ∧ ∃ blocks, HeapInv last blocks ∧
      Serves last.heap.mem blocks entry header block := by
  obtain ⟨calls, hrun⟩ := hreached
  have hstep : ∀ sys call next,
      (entry ∈ sys.live ∧ ∃ blocks, HeapInv sys blocks ∧
        Serves sys.heap.mem blocks entry header block) →
      Machine.guarded (fun sys call =>
          sys.fits call && call.spares entry.ptr) HeapSystem.serve sys call =
        some next →
      entry ∈ next.live ∧ ∃ blocks, HeapInv next blocks ∧
        Serves next.heap.mem blocks entry header block := by
    rintro sys call next ⟨hentry, blocks, hinv, hserves⟩ hstep
    obtain ⟨hguard, hserve⟩ := Machine.guarded_eq_some.mp hstep
    obtain ⟨hfits, hspares⟩ := Bool.and_eq_true_iff.mp hguard
    obtain ⟨blocks', hinv', hretains⟩ := heap_serve_inv hinv hfits hserve
    have hlive := HeapSystem.serve_live hentry hkind hspares hserve
    exact ⟨hlive, blocks', hinv', hretains entry hentry hlive _ _ hserves⟩
  exact Machine.exec_invariant hstep ⟨hentry, hserves⟩ hrun

/-- A page-aligned pointer and the word before it lie in one newly allocated
block, and `kfree_aligned` frees exactly that block, whatever calls and client
writes come in between. -/
theorem kheap_run_aligned_round_trip (boot heap : Kheap)
    (hinit : kheapInit boot = .ok heap) (sys : HeapSystem)
    (hreached : HeapReached heap sys) (size p : Nat) (heap' : Kheap)
    (hpos : 1 ≤ size) (hsmall : size ≤ 2 ^ 31)
    (hmalloc : kmallocAligned sys.heap size = .ok (p, heap')) (hp : p ≠ 0) :
    p % 4096 = 0 ∧
      ∃ blocks blocks' header block,
        HeapShape sys.heap blocks ∧ HeapShape heap' blocks' ∧
        At firstBlock blocks' header block ∧ block.used = true ∧
        header ∉ usedHeaders firstBlock blocks ∧
        header + 4 + 4 ≤ p ∧ p + size + 4 ≤ header + block.size ∧
        ∀ last, HeapReachedSparing p
            ⟨heap', ⟨p, size, .aligned⟩ :: sys.live⟩ last →
          ∃ before after, HeapShape last.heap before ∧
            At firstBlock before header block ∧
            HeapShape (kfreeAligned last.heap p) after ∧
            (usedHeaders firstBlock before).Perm
              (header :: usedHeaders firstBlock after) ∧
            ∀ other block', At firstBlock before other block' →
              block'.used = true → other ≠ header →
                At firstBlock after other block' := by
  refine ⟨kmallocAligned_multiple hmalloc, ?_⟩
  obtain ⟨blocks, hinv⟩ := hreached.inv hinit
  obtain ⟨blocks', hinv', hretains⟩ := kmallocAligned_inv hinv
    (hinv.shape.requestFits (by omega)) hmalloc
  have hrecord : sys.record size .aligned (p, heap') =
      ⟨heap', ⟨p, size, .aligned⟩ :: sys.live⟩ := by
    simp [HeapSystem.record, hp]
  rw [hrecord] at hinv' hretains
  obtain ⟨header, block, hserves⟩ := hinv'.serves _ List.mem_cons_self
  have hkind : (⟨p, size, .aligned⟩ : Live).kind = .aligned := rfl
  have hlow : header + 4 ≤ p - 4 := hserves.low
  refine ⟨blocks, blocks', header, block, hinv.shape, hinv'.shape, hserves.here,
    hserves.used, hinv.header_fresh hinv' hretains hserves, by omega,
    hserves.high, ?_⟩
  intro last hlast
  obtain ⟨hentry, before, hbefore, hserves'⟩ :=
    HeapReachedSparing.serves hkind List.mem_cons_self
      ⟨blocks', hinv', hserves⟩ hlast
  obtain ⟨after, hafter, hheaders, hothers⟩ :=
    hbefore.kfreeAligned_frees hentry hkind hserves'
  exact ⟨before, after, hbefore.shape, hserves'.here, hafter, hheaders, hothers⟩

namespace KheapRequestsWitness

/-- Unused memory, as before `kheap_init`. -/
def unstarted : Kheap := KheapInvariantWitness.boot

/-- The first of two allocations is freed again. -/
def calls : List HeapCall := [.kmalloc 10, .kmalloc 100, .kfree 0x01000010]

def run : Option HeapSystem :=
  (kheapInit unstarted).toOption.bind fun heap =>
    Machine.exec HeapSystem.step ⟨heap, []⟩ calls

theorem run_reuses_first :
    (run.bind fun sys => (kmalloc sys.heap 8).toOption.map Prod.fst) =
      some 0x01000010 := by
  decide +kernel

theorem freed_block_first_fit :
    ∃ heap sys blocks heap', kheapInit unstarted = .ok heap ∧
      HeapReached heap sys ∧ HeapShape sys.heap blocks ∧
      kmalloc sys.heap 8 = .ok (0x01000010, heap') ∧
      ∃ found, findFit sys.heap.mem (blockSize 8) sys.heap.heapBrk
        (nextBlkp sys.heap.mem sys.heap.heapListp) = .ok found := by
  obtain ⟨sys, hrun, hmalloc⟩ := Option.bind_eq_some_iff.mp run_reuses_first
  obtain ⟨heap, hinit, hexec⟩ := Option.bind_eq_some_iff.mp hrun
  obtain ⟨⟨p, heap'⟩, hmalloc, rfl⟩ := Option.map_eq_some_iff.mp hmalloc
  have hinit := toOption_eq_some hinit
  have hreached := heapReached_of_step hinit hexec
  obtain ⟨blocks, hshape, hsizes⟩ :=
    kheap_run_first_fit unstarted heap hinit sys hreached
  exact ⟨heap, sys, blocks, heap', hinit, hreached, hshape,
    toOption_eq_some hmalloc, (hsizes 8 (by decide) (by decide)).1⟩

theorem freed_block_layout :
    ∃ heap sys headers, ∃ blocks : List Block,
      kheapInit unstarted = .ok heap ∧ HeapReached heap sys ∧
      blocks.map (fun block => (block.size, block.used)) =
        fillGaps (getSize sys.heap.mem) sys.heap.heapBrk firstBlock headers := by
  obtain ⟨sys, hrun, -⟩ := Option.bind_eq_some_iff.mp run_reuses_first
  obtain ⟨heap, hinit, hexec⟩ := Option.bind_eq_some_iff.mp hrun
  have hinit := toOption_eq_some hinit
  have hreached := heapReached_of_step hinit hexec
  obtain ⟨blocks, headers, -, -, -, hblocks⟩ :=
    kheap_run_layout unstarted heap hinit sys hreached
  exact ⟨heap, sys, headers, blocks, hinit, hreached, hblocks⟩

/-- Calls between an aligned allocation and its release. -/
def later : List HeapCall :=
  [.kmalloc 5000, .store 0x01001000 7, .kmalloc 64, .kfree 0x01001030]

def laterRun : Option (Nat × HeapSystem) :=
  (kheapInit unstarted).toOption.bind fun heap =>
    (kmallocAligned heap 20).toOption.bind fun result =>
      (Machine.exec (Machine.guarded (fun sys call =>
          sys.fits call && call.spares 0x01001000) HeapSystem.serve)
        ⟨result.2, [⟨0x01001000, 20, .aligned⟩]⟩ later).map
          fun last => (result.1, last)

theorem laterRun_pointer : laterRun.map Prod.fst = some 0x01001000 := by
  decide +kernel

theorem page_at_16M_round_trip :
    ∃ heap heap' last header before after,
      kheapInit unstarted = .ok heap ∧
      kmallocAligned heap 20 = .ok (0x01001000, heap') ∧
      HeapReachedSparing 0x01001000
        ⟨heap', [⟨0x01001000, 20, .aligned⟩]⟩ last ∧
      HeapShape last.heap before ∧
      HeapShape (kfreeAligned last.heap 0x01001000) after ∧
      (usedHeaders firstBlock before).Perm
        (header :: usedHeaders firstBlock after) := by
  obtain ⟨⟨p, last⟩, hrun, rfl⟩ := Option.map_eq_some_iff.mp laterRun_pointer
  obtain ⟨heap, hinit, hrest⟩ := Option.bind_eq_some_iff.mp hrun
  obtain ⟨⟨p', heap'⟩, hmalloc, hrest⟩ := Option.bind_eq_some_iff.mp hrest
  obtain ⟨last', hexec, heq⟩ := Option.map_eq_some_iff.mp hrest
  obtain ⟨rfl, rfl⟩ := Prod.mk.inj heq
  have hinit := toOption_eq_some hinit
  have hmalloc := toOption_eq_some hmalloc
  obtain ⟨-, _, _, header, _, -, -, -, -, -, -, -, hlater⟩ :=
    kheap_run_aligned_round_trip unstarted heap hinit ⟨heap, []⟩ ⟨[], rfl⟩ 20 _ heap'
      (by decide) (by decide) hmalloc (by decide)
  obtain ⟨before, after, hbefore, -, hafter, hheaders, -⟩ :=
    hlater last' ⟨later, hexec⟩
  exact ⟨heap, heap', last', header, before, after, hinit, hmalloc,
    ⟨later, hexec⟩, hbefore, hafter, hheaders⟩

end KheapRequestsWitness

end Orion
