/-
The two-level page tables of the virtual memory manager.  Directories and
tables live in physical memory and are reached by their physical address, as
the source does.
-/
import Orion.Pmm

namespace Orion

open MachineInt

def vmmPresent : BitVec 32 := 1#32 <<< 0
def vmmWritable : BitVec 32 := 1#32 <<< 1
def vmmUser : BitVec 32 := 1#32 <<< 2
def vmmKernelRw : BitVec 32 := vmmPresent ||| vmmWritable
def vmmAddrMask : BitVec 32 := 0xFFFFF000#32

/-- Physical memory, read and written one aligned word at a time. -/
abbrev PhysMem := Nat → BitVec 32

/-- The statics of the memory managers and the memory they share. -/
structure Paging where
  pmm : Pmm
  mem : PhysMem
  pageDirectory : Nat
  kernelPdPhys : Nat

def pdIndex (virt : Nat) : Nat := virt / 2 ^ 22

def ptIndex (virt : Nat) : Nat := virt / 2 ^ 12 % 1024

/-- The address of slot `i` of the table at `table`. -/
def slotAddr (table i : Nat) : Nat := table + 4 * i

/-- The table an entry points to. -/
def entryTable (entry : BitVec 32) : Nat := (entry &&& vmmAddrMask).toNat

/-- Zero the 1024 entries of a fresh table. -/
def clearTable (mem : PhysMem) (table : Nat) : PhysMem :=
  (List.range 1024).foldl
    (fun mem i => Function.update mem (slotAddr table i) 0#32) mem

/-- The table that serves `virt`, allocated on first use. -/
def createTable (paging : Paging) (virt : Nat) (flags : BitVec 32) :
    Option Nat × Paging :=
  let pde := paging.mem (slotAddr paging.pageDirectory (pdIndex virt))
  if pde &&& vmmPresent ≠ 0 then (some (entryTable pde), paging)
  else
    let (ptPhys, pmm) := pmmAllocFrame paging.pmm
    if ptPhys = 0 then (none, { paging with pmm := pmm })
    else
      let mem := clearTable paging.mem ptPhys
      let entry := BitVec.ofNat 32 ptPhys ||| vmmPresent ||| vmmWritable |||
        (flags &&& vmmUser)
      (some ptPhys, { paging with
        pmm := pmm
        mem := Function.update mem
          (slotAddr paging.pageDirectory (pdIndex virt)) entry })

/-- Map one page; `none` is the panic on a failed table allocation. -/
def vmmMapPage (paging : Paging) (virt phys : Nat) (flags : BitVec 32) :
    Option Paging :=
  match createTable paging virt flags with
  | (none, _) => none
  | (some table, paging) =>
      some { paging with
        mem := Function.update paging.mem (slotAddr table (ptIndex virt))
          ((BitVec.ofNat 32 phys &&& vmmAddrMask) ||| (flags ||| vmmPresent)) }

/-- Remove the mapping of one page, if its table exists. -/
def vmmUnmapPage (paging : Paging) (virt : Nat) : Paging :=
  let pde := paging.mem (slotAddr paging.pageDirectory (pdIndex virt))
  if pde &&& vmmPresent = 0 then paging
  else { paging with
    mem := Function.update paging.mem
      (slotAddr (entryTable pde) (ptIndex virt)) 0#32 }

/-- The physical address behind `virt`, or zero. -/
def vmmGetPhys (paging : Paging) (virt : Nat) : Nat :=
  let pde := paging.mem (slotAddr paging.pageDirectory (pdIndex virt))
  if pde &&& vmmPresent = 0 then 0
  else
    let pte := paging.mem (slotAddr (entryTable pde) (ptIndex virt))
    if pte &&& vmmPresent = 0 then 0 else entryTable pte ||| virt % 2 ^ 12

def vmmIsMapped (paging : Paging) (virt : Nat) : Bool :=
  let pde := paging.mem (slotAddr paging.pageDirectory (pdIndex virt))
  if pde &&& vmmPresent = 0 then false
  else paging.mem (slotAddr (entryTable pde) (ptIndex virt)) &&& vmmPresent ≠ 0

/-- The identity map of the first 4 MB. -/
def identityTable (mem : PhysMem) (table : Nat) : PhysMem :=
  (List.range 1024).foldl
    (fun mem i => Function.update mem (slotAddr table i)
      (BitVec.ofNat 32 (i * pageSize) ||| vmmKernelRw)) mem

/-- Build the kernel's directory; `none` is the panic without a frame for it
or for its first table. -/
def vmmInit (paging : Paging) : Option Paging :=
  let (pdPhys, pmm) := pmmAllocFrame paging.pmm
  if pdPhys = 0 then none
  else
    let mem := clearTable paging.mem pdPhys
    let (pt0Phys, pmm) := pmmAllocFrame pmm
    if pt0Phys = 0 then none
    else
      let mem := identityTable mem pt0Phys
      some { pmm := pmm
             mem := Function.update mem (slotAddr pdPhys 0)
               (BitVec.ofNat 32 pt0Phys ||| vmmKernelRw)
             pageDirectory := pdPhys
             kernelPdPhys := pdPhys }

/-- A new directory with the kernel's first entry, or zero. -/
def vmmCreateAddressSpace (paging : Paging) : Nat × Paging :=
  let (pdPhys, pmm) := pmmAllocFrame paging.pmm
  if pdPhys = 0 then (0, { paging with pmm := pmm })
  else
    let mem := clearTable paging.mem pdPhys
    (pdPhys, { paging with
      pmm := pmm
      mem := Function.update mem (slotAddr pdPhys 0)
        (mem (slotAddr paging.kernelPdPhys 0)) })

/-- Free the pages of a table, then the table. -/
def freeTable (paging : Paging) (pde : BitVec 32) : Paging :=
  let pmm := (List.range 1024).foldl (fun pmm j =>
    let pte := paging.mem (slotAddr (entryTable pde) j)
    if pte &&& vmmPresent = 0 then pmm
    else pmmFreeFrame pmm (UInt32.ofBitVec (pte &&& vmmAddrMask))) paging.pmm
  { paging with pmm := pmmFreeFrame pmm (UInt32.ofBitVec (pde &&& vmmAddrMask)) }

/-- Free the user tables of a directory; the frame of the directory itself is
kept. -/
def vmmDestroyAddressSpace (paging : Paging) (pdPhys : Nat) : Paging :=
  if pdPhys = 0 ∨ pdPhys = paging.kernelPdPhys then paging
  else
    (List.range' 1 1023).foldl (fun paging i =>
      let pde := paging.mem (slotAddr pdPhys i)
      if pde &&& vmmPresent = 0 then paging else freeTable paging pde) paging

/-- The checks `vmm_range_mapped` makes on the page at `addr`. -/
def vmmPageMapped (mem : PhysMem) (pd : Nat) (userOnly : Bool)
    (addr : Nat) : Bool :=
  let pde := mem (slotAddr pd (pdIndex addr))
  if pde &&& vmmPresent = 0 then false
  else if userOnly && pde &&& vmmUser = 0 then false
  else
    let pte := mem (slotAddr (entryTable pde) (ptIndex addr))
    if pte &&& vmmPresent = 0 then false
    else if userOnly && pte &&& vmmUser = 0 then false
    else true

/-- The loop of `vmm_range_mapped`.  Both bounds are page aligned and below
`2 ^ 32`, so the increment does not wrap. -/
def vmmRangeWalk (mem : PhysMem) (pd : Nat) (userOnly : Bool)
    (addr stop : Nat) : Bool :=
  if addr < stop then
    if vmmPageMapped mem pd userOnly addr then
      vmmRangeWalk mem pd userOnly (addr + pageSize) stop
    else false
  else true
termination_by stop - addr
decreasing_by
  simp only [pageSize]
  omega

/-- Is every page of `[virt, virt + len)` present in the directory `pd`?  A
null directory and an empty range are refused. -/
def vmmRangeMapped (mem : PhysMem) (pd : Nat) (virt len : UInt32)
    (userOnly : Bool) : Bool :=
  if pd = 0 ∨ len = 0 then false
  else
    let addr := pageFloor virt.toNat
    let stop := pageFloor (u32 (virt.toNat + len.toNat + pageSize - 1))
    vmmRangeWalk mem pd userOnly addr stop

end Orion
