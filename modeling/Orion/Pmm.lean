/-
The bitmap physical memory manager.  One bit stands for one 4 KB frame of the
32-bit physical address space; a set bit means used.  Boot marks everything
used, frees what the memory map calls available, and then reserves the kernel
image and frame zero.
-/
import Orion.MachineInt
import Orion.WordBitmap

namespace Orion

open MachineInt

def pageSize : Nat := 4096

/-- `PMM_MAX_FRAMES`: the frames of 4 GB. -/
def pmmMaxFrames : Nat := 0x100000000 / pageSize

/-- `PMM_BITMAP_SIZE`: the words that hold one bit for each frame. -/
def pmmBitmapSize : Nat := pmmMaxFrames / 32

def addrToFrame (addr : Nat) : Nat := addr / pageSize

def frameToAddr (frame : Nat) : Nat := u32 (frame * pageSize)

/-- Masking with `~(PAGE_SIZE - 1)`. -/
def pageFloor (addr : Nat) : Nat := addr / pageSize * pageSize

/-- The statics of the allocator. -/
structure Pmm where
  bitmap : WordBitmap.Words
  totalFrames : Nat
  usedFrames : Nat
  allocSearch : Nat

/-- The statics before `pmm_init` runs. -/
def Pmm.boot : Pmm := ⟨fun _ => 0#32, 0, 0, 1⟩

/-- One entry of the boot loader's memory map. -/
structure MmapEntry where
  addr : UInt64
  len : UInt64
  type : UInt32

/-- The boot information the allocator reads.  `mmap` lists the entries in
the order in which the `size` fields chain them. -/
structure MultibootInfo where
  flags : UInt32
  memUpper : UInt32
  mmap : List MmapEntry

def multibootFlagMem : UInt32 := (1 : UInt32) <<< 0
def multibootFlagMmap : UInt32 := (1 : UInt32) <<< 6
def multibootMemoryAvailable : UInt32 := 1

def bitmapTest (pmm : Pmm) (frame : Nat) : Bool :=
  WordBitmap.test pmm.bitmap frame

/-- One iteration of the loop in `pmm_mark_region_reserved`. -/
def reserveFrame (pmm : Pmm) (frame : Nat) : Pmm :=
  if bitmapTest pmm frame then pmm
  else { pmm with
    bitmap := WordBitmap.set pmm.bitmap frame
    usedFrames := u32 (pmm.usedFrames + 1) }

/-- One iteration of the loop in `pmm_mark_region_available`. -/
def releaseFrame (pmm : Pmm) (frame : Nat) : Pmm :=
  if frame = 0 then pmm
  else if bitmapTest pmm frame then
    { pmm with
      bitmap := WordBitmap.clear pmm.bitmap frame
      usedFrames := sub32 pmm.usedFrames 1
      totalFrames := u32 (pmm.totalFrames + 1) }
  else pmm

def pmmMarkRegionReserved (pmm : Pmm) (base len : Nat) : Pmm :=
  let alignedBase := pageFloor (u64 (base + pageSize - 1))
  if alignedBase > u64 (base + len) then pmm
  else
    let alignedLen := pageFloor (sub64 len (sub64 alignedBase base))
    let frame := u32 (alignedBase / pageSize)
    let count := u32 (alignedLen / pageSize)
    (List.range count).foldl (fun pmm i => reserveFrame pmm (u32 (frame + i)))
      pmm

def pmmMarkRegionAvailable (pmm : Pmm) (base len : Nat) : Pmm :=
  let alignedBase := pageFloor (u64 (base + pageSize - 1))
  if alignedBase ≥ u64 (base + len) then pmm
  else
    let alignedLen := pageFloor (sub64 len (sub64 alignedBase base))
    let frame := u32 (alignedBase / pageSize)
    let count := u32 (alignedLen / pageSize)
    (List.range count).foldl (fun pmm i => releaseFrame pmm (u32 (frame + i)))
      pmm

/-- The end of an entry, clamped to 4 GB. -/
def MmapEntry.top (entry : MmapEntry) : Nat :=
  let top := u64 (entry.addr.toNat + entry.len.toNat)
  if top > 0x100000000 then 0x100000000 else top

/-- The length passed on for an entry; it is truncated to 32 bits. -/
def MmapEntry.clippedLen (entry : MmapEntry) : Nat :=
  u32 (sub64 entry.top entry.addr.toNat)

/-- One iteration of the loop over the memory map. -/
def pmmImportEntry (pmm : Pmm) (entry : MmapEntry) : Pmm :=
  if entry.type = multibootMemoryAvailable then
    if entry.addr.toNat < 0x100000000 then
      pmmMarkRegionAvailable pmm (u32 entry.addr.toNat) entry.clippedLen
    else pmm
  else pmm

/-- The part of `pmm_init` that reads the boot information. -/
def pmmImport (pmm : Pmm) (mbi : MultibootInfo) : Pmm :=
  if mbi.flags &&& multibootFlagMmap = 0 then
    if mbi.flags &&& multibootFlagMem = 0 then pmm
    else pmmMarkRegionAvailable pmm 0x100000 (u64 (mbi.memUpper.toNat * 1024))
  else mbi.mmap.foldl pmmImportEntry pmm

/-- All frames used, as at the top of `pmm_init`. -/
def pmmDenyAll (pmm : Pmm) : Pmm :=
  { pmm with
    bitmap := fun w => if w < pmmBitmapSize then 0xFFFFFFFF#32 else pmm.bitmap w
    usedFrames := pmmMaxFrames
    totalFrames := 0 }

def pmmInit (pmm : Pmm) (mbi : MultibootInfo)
    (kernelPhysStart kernelPhysEnd : UInt32) : Pmm :=
  let pmm := pmmImport (pmmDenyAll pmm) mbi
  let pmm := pmmMarkRegionReserved pmm kernelPhysStart.toNat
    (sub32 kernelPhysEnd.toNat kernelPhysStart.toNat)
  reserveFrame pmm 0

/-- One pass of the two-pass search of `pmm_alloc_frame`. -/
def pmmScan (pmm : Pmm) (start stop : Nat) : Option Nat :=
  WordBitmap.search pmm.bitmap
    (fun frame => frame ≠ 0 && !(frame < start || frame ≥ stop))
    (start / 32) ((stop + 31) / 32)

/-- Mark the frame that was found and move the search hint behind it. -/
def pmmTakeFrame (pmm : Pmm) (frame : Nat) : Pmm :=
  { pmm with
    bitmap := WordBitmap.set pmm.bitmap frame
    usedFrames := u32 (pmm.usedFrames + 1)
    allocSearch := if frame + 1 ≥ pmmMaxFrames then 1 else frame + 1 }

/-- Allocate one frame; the result is its address, or zero. -/
def pmmAllocFrame (pmm : Pmm) : Nat × Pmm :=
  if pmm.totalFrames = 0 then (0, pmm)
  else
    match pmmScan pmm pmm.allocSearch pmmMaxFrames with
    | some frame => (frameToAddr frame, pmmTakeFrame pmm frame)
    | none =>
        match pmmScan pmm 1 pmm.allocSearch with
        | some frame => (frameToAddr frame, pmmTakeFrame pmm frame)
        | none => (0, pmm)

def pmmFreeFrame (pmm : Pmm) (physAddr : UInt32) : Pmm :=
  let frame := addrToFrame physAddr.toNat
  if frame = 0 then pmm
  else if bitmapTest pmm frame then
    { pmm with
      bitmap := WordBitmap.clear pmm.bitmap frame
      usedFrames := sub32 pmm.usedFrames 1
      allocSearch := if frame < pmm.allocSearch then frame
        else pmm.allocSearch }
  else pmm

end Orion
