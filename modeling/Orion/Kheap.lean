/-
The kernel heap: a first-fit allocator over boundary-tagged blocks in one
growing virtual range.  Mapped heap memory is a flat array of bytes; the page
tables and the frame allocator behind it are carried along as `Paging`.
-/
import Orion.ByteMem
import Orion.Vmm

namespace Orion

open MachineInt ByteMem

def heapStart : Nat := 0x01000000
def heapMax : Nat := 0x05000000
def heapInitial : Nat := 64 * 1024

def wsize : Nat := 4
def dwsize : Nat := 8
def minBlock : Nat := dwsize + dwsize

/-- Round up to a multiple of eight, in 32 bits. -/
def align (s : Nat) : Nat := u32 (s + (dwsize - 1)) / dwsize * dwsize

/-- A tag word: block size and allocated bit. -/
def pack (size alloc : Nat) : Nat := size ||| alloc

def getSize (mem : Mem) (p : Nat) : Nat := getWord mem p / 8 * 8

def getAlloc (mem : Mem) (p : Nat) : Nat := getWord mem p % 2

/-- The header of the block whose payload starts at `bp`. -/
def hdrp (bp : Nat) : Nat := sub32 bp wsize

def ftrp (mem : Mem) (bp : Nat) : Nat :=
  sub32 (u32 (bp + getSize mem (hdrp bp))) dwsize

def nextBlkp (mem : Mem) (bp : Nat) : Nat :=
  u32 (bp + getSize mem (hdrp bp))

def prevBlkp (mem : Mem) (bp : Nat) : Nat :=
  sub32 bp (getSize mem (sub32 bp dwsize))

/-- The statics of the heap, with the memory behind them. -/
structure Kheap where
  mem : Mem
  heapListp : Nat
  heapBrk : Nat
  heapVirtMapped : Nat
  paging : Paging

/-- Why a call does not return: a panic, or a walk over damaged tags that
never meets an epilogue. -/
inductive Halt where
  | panic
  | endless
  deriving DecidableEq, Repr

theorem toOption_eq_some {ε α : Type} {outcome : Except ε α} {result : α}
    (hsome : outcome.toOption = some result) : outcome = .ok result := by
  cases outcome with
  | error _ => cases hsome
  | ok _ => cases hsome; rfl

/-- The loop of `ensure_mapped`; every round maps one page below the ceiling,
which bounds the number of rounds by `budget`. -/
def ensureMappedLoop (stop : Nat) : Nat → Kheap → Except Halt (Bool × Kheap)
  | 0, _ => .error .endless
  | budget + 1, heap =>
      if heap.heapVirtMapped < stop then
        if heapMax < u32 (heap.heapVirtMapped + pageSize) then
          .ok (false, heap)
        else
          let (phys, pmm) := pmmAllocFrame heap.paging.pmm
          let paging := { heap.paging with pmm := pmm }
          if phys = 0 then .ok (false, { heap with paging := paging })
          else
            match vmmMapPage paging heap.heapVirtMapped phys vmmKernelRw with
            | none => .error .panic
            | some paging =>
                ensureMappedLoop stop budget { heap with
                  paging := paging
                  heapVirtMapped := u32 (heap.heapVirtMapped + pageSize) }
      else .ok (true, heap)

/-- Back `[HEAP_START, stop)` by frames; `false` is out of memory. -/
def ensureMapped (heap : Kheap) (stop : Nat) : Except Halt (Bool × Kheap) :=
  ensureMappedLoop stop (heapMax / pageSize + 2) heap

/-- Merge the free block at `bp` with its free neighbours. -/
def coalesce (mem : Mem) (bp : Nat) : Nat × Mem :=
  let prevBp := prevBlkp mem bp
  let nextBp := nextBlkp mem bp
  let prevFree := getAlloc mem (ftrp mem prevBp) == 0
  let nextFree := getAlloc mem (hdrp nextBp) == 0
  let size := getSize mem (hdrp bp)
  match prevFree, nextFree with
  | false, false => (bp, mem)
  | false, true =>
      let size := u32 (size + getSize mem (hdrp nextBp))
      let mem := putWord mem (hdrp bp) (pack size 0)
      (bp, putWord mem (ftrp mem bp) (pack size 0))
  | true, false =>
      let size := u32 (size + getSize mem (hdrp prevBp))
      -- the footer is found through the old size of `bp`
      let mem := putWord mem (ftrp mem bp) (pack size 0)
      (prevBp, putWord mem (hdrp prevBp) (pack size 0))
  | true, true =>
      let size := u32 (size +
        u32 (getSize mem (hdrp prevBp) + getSize mem (hdrp nextBp)))
      let mem := putWord mem (hdrp prevBp) (pack size 0)
      (prevBp, putWord mem (ftrp mem nextBp) (pack size 0))

/-- Turn the epilogue into a free block of `size` bytes and put a new epilogue
behind it. -/
def extendMapped (heap : Kheap) (size : Nat) : Nat × Kheap :=
  let bp := u32 (heap.heapBrk + wsize)
  let mem := putWord heap.mem heap.heapBrk (pack size 0)
  let mem := putWord mem (ftrp mem bp) (pack size 0)
  let mem := putWord mem (hdrp (nextBlkp mem bp)) (pack 0 1)
  let merged := coalesce mem bp
  (merged.1, { heap with
    mem := merged.2
    heapBrk := u32 (heap.heapBrk + size) })

/-- Add a free block of `size` bytes once it is mapped.  The null pointer
stands for out of memory. -/
def extendHeap (heap : Kheap) (size : Nat) : Except Halt (Nat × Kheap) := do
  let (mapped, heap) ← ensureMapped heap (u32 (heap.heapBrk + size + wsize))
  if mapped then return extendMapped heap size else return (0, heap)

/-- Allocate `asize` bytes of the free block at `bp`; the rest becomes a free
block when it is large enough for one. -/
def place (mem : Mem) (bp asize : Nat) : Mem :=
  let csize := getSize mem (hdrp bp)
  if minBlock ≤ sub32 csize asize then
    let mem := putWord mem (hdrp bp) (pack asize 1)
    let mem := putWord mem (ftrp mem bp) (pack asize 1)
    let remainder := nextBlkp mem bp
    let mem := putWord mem (hdrp remainder) (pack (sub32 csize asize) 0)
    putWord mem (ftrp mem remainder) (pack (sub32 csize asize) 0)
  else
    let mem := putWord mem (hdrp bp) (pack csize 1)
    putWord mem (ftrp mem bp) (pack csize 1)

/-- Padding, prologue and epilogue in the first mapped page. -/
def layOut (heap : Kheap) (paging : Paging) : Kheap :=
  let mem := putWord heap.mem (heapStart + 0 * wsize) 0
  let mem := putWord mem (heapStart + 1 * wsize) (pack dwsize 1)
  let mem := putWord mem (heapStart + 2 * wsize) (pack dwsize 1)
  let mem := putWord mem (heapStart + 3 * wsize) (pack 0 1)
  { mem := mem
    heapListp := heapStart + 2 * wsize
    heapBrk := heapStart + 3 * wsize
    heapVirtMapped := heapStart + pageSize
    paging := paging }

/-- Map the first page, lay out the empty heap and extend it by its first free
block. -/
def kheapInit (heap : Kheap) : Except Halt Kheap :=
  let (phys, pmm) := pmmAllocFrame heap.paging.pmm
  if phys = 0 then .error .panic
  else
    match vmmMapPage { heap.paging with pmm := pmm } heapStart phys
        vmmKernelRw with
    | none => .error .panic
    | some paging =>
        match extendHeap (layOut heap paging)
            (max (align heapInitial) minBlock) with
        | .error halt => .error halt
        | .ok (bp, heap) => if bp = 0 then .error .panic else .ok heap

/-- The block size that serves a request of `size` bytes. -/
def blockSize (size : Nat) : Nat :=
  max (u32 (align size + dwsize)) minBlock

/-- The first-fit walk: the first free block of at least `asize` bytes, or
none when the walk meets the epilogue. -/
def findFit (mem : Mem) (asize : Nat) : Nat → Nat → Except Halt (Option Nat)
  | 0, _ => .error .endless
  | fuel + 1, bp =>
      if getSize mem (hdrp bp) = 0 then .ok none
      else if getAlloc mem (hdrp bp) = 0 ∧ asize ≤ getSize mem (hdrp bp) then
        .ok (some bp)
      else findFit mem asize fuel (nextBlkp mem bp)

/-- How far the heap grows when nothing fits. -/
def extensionSize (asize : Nat) : Nat := align (max asize pageSize)

/-- Allocate `size` bytes; the null pointer stands for out of memory.  No
walk over intact tags takes more steps than there are bytes below the
epilogue. -/
def kmalloc (heap : Kheap) (size : Nat) : Except Halt (Nat × Kheap) := do
  if size = 0 then return (0, heap)
  let asize := blockSize size
  match ← findFit heap.mem asize heap.heapBrk
      (nextBlkp heap.mem heap.heapListp) with
  | some bp => return (bp, { heap with mem := place heap.mem bp asize })
  | none =>
      let (bp, heap) ← extendHeap heap (extensionSize asize)
      if bp = 0 then return (0, heap)
      return (bp, { heap with mem := place heap.mem bp asize })

/-- The first page boundary that leaves a word for the back-pointer. -/
def alignedPayload (raw : Nat) : Nat :=
  pageFloor (u32 (raw + 4 + pageSize - 1))

/-- Move a non-null `kmalloc` result to a page boundary and store the original
pointer in the word before it. -/
def storeBackPointer (result : Nat × Kheap) : Nat × Kheap :=
  if result.1 = 0 then (0, result.2)
  else
    let aligned := alignedPayload result.1
    (aligned, { result.2 with
      mem := putWord result.2.mem (sub32 aligned 4) result.1 })

/-- Allocate `size` bytes at a page boundary, with room for the pointer to the
enclosing block. -/
def kmallocAligned (heap : Kheap) (size : Nat) : Except Halt (Nat × Kheap) :=
  (kmalloc heap (u32 (size + pageSize + 4))).map storeBackPointer

def kfree (heap : Kheap) (ptr : Nat) : Kheap :=
  if ptr = 0 then heap
  else
    let size := getSize heap.mem (hdrp ptr)
    let mem := putWord heap.mem (hdrp ptr) (pack size 0)
    let mem := putWord mem (ftrp mem ptr) (pack size 0)
    { heap with mem := (coalesce mem ptr).2 }

def kfreeAligned (heap : Kheap) (ptr : Nat) : Kheap :=
  if ptr = 0 then heap else kfree heap (getWord heap.mem (sub32 ptr 4))

end Orion
