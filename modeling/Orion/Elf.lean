/-
The ELF32 loader.  Program headers come from a file of the file system, page
frames from the frame allocator, and the image is stored through the page
tables of the active directory.  The bytes behind mapped pages are kept apart
from the words of the tables, which only the virtual memory manager writes,
and from the kernel's own objects.
-/
import Orion.BlockStore
import Orion.ByteMem
import Orion.Vfs
import Orion.VmmTables

namespace Orion

open MachineInt ByteMem BlockStore

def elfMagic0 : UInt8 := 0x7F
def elfMagic1 : UInt8 := 0x45
def elfMagic2 : UInt8 := 0x4C
def elfMagic3 : UInt8 := 0x46

def elfclass32 : UInt8 := 1
def elfdata2lsb : UInt8 := 1
def etExec : Nat := 2
def em386 : Nat := 3
def ptLoad : Nat := 1

/-- The file header, without the fields the loader ignores. -/
structure Elf32Ehdr where
  eIdent : List UInt8
  eType : Nat
  eMachine : Nat
  eVersion : Nat
  eEntry : Nat
  ePhoff : Nat
  ePhentsize : Nat
  ePhnum : Nat

/-- A program header, without the fields the loader ignores. -/
structure Elf32Phdr where
  pType : Nat
  pOffset : Nat
  pVaddr : Nat
  pFilesz : Nat
  pMemsz : Nat
  deriving DecidableEq

def sizeofEhdr : Nat := 52
def sizeofPhdr : Nat := 32

/-- The little-endian half word at `offset`. -/
def getHalf (bytes : List UInt8) (offset : Nat) : Nat :=
  (bytes.getD offset 0).toNat + 2 ^ 8 * (bytes.getD (offset + 1) 0).toNat

/-- The `Elf32_Ehdr` in the first bytes of a file. -/
def readEhdr (bytes : List UInt8) : Elf32Ehdr where
  eIdent := bytes.take 16
  eType := getHalf bytes 16
  eMachine := getHalf bytes 18
  eVersion := getWord (fun i => bytes.getD i 0) 20
  eEntry := getWord (fun i => bytes.getD i 0) 24
  ePhoff := getWord (fun i => bytes.getD i 0) 28
  ePhentsize := getHalf bytes 42
  ePhnum := getHalf bytes 44

def readPhdr (bytes : List UInt8) : Elf32Phdr where
  pType := getWord (fun i => bytes.getD i 0) 0
  pOffset := getWord (fun i => bytes.getD i 0) 4
  pVaddr := getWord (fun i => bytes.getD i 0) 8
  pFilesz := getWord (fun i => bytes.getD i 0) 16
  pMemsz := getWord (fun i => bytes.getD i 0) 20

/-- The checks `elf_load` makes on the header, in its order. -/
def Elf32Ehdr.valid (ehdr : Elf32Ehdr) : Bool :=
  ehdr.eIdent.getD 0 0 == elfMagic0 && ehdr.eIdent.getD 1 0 == elfMagic1 &&
  ehdr.eIdent.getD 2 0 == elfMagic2 && ehdr.eIdent.getD 3 0 == elfMagic3 &&
  ehdr.eIdent.getD 4 0 == elfclass32 && ehdr.eIdent.getD 5 0 == elfdata2lsb &&
  ehdr.eType == etExec && ehdr.eMachine == em386 && ehdr.ePhnum != 0 &&
  ehdr.eVersion == 1

/-- Memory as the kernel addresses it.  `ram` has the bytes of physical memory
behind mapped pages; `log` records the block stores of the present call, latest
first. -/
structure MappedMem where
  paging : Paging
  ram : Mem
  log : List (Transfer Nat UInt8)

/-- What a load works on. -/
structure LoadState where
  store : Store
  mem : MappedMem

/-- The physical address behind `virt`. -/
def MappedMem.phys (mem : MappedMem) (virt : Nat) : Option Nat :=
  translate mem.paging.mem mem.paging.pageDirectory virt

/-- `n` stores from address `dst` on, through the page tables. -/
def MappedMem.transfer (mem : MappedMem) (dst n : Nat) (value : Nat → UInt8) :
    Transfer Nat UInt8 where
  len := n
  target i := mem.phys (u32 (dst + i))
  value := value

/-- Make the stores; `none` is the panic of the page-fault handler. -/
def MappedMem.storeBytes (mem : MappedMem) (dst n : Nat)
    (value : Nat → UInt8) : Option MappedMem :=
  (run (mem.transfer dst n value) mem.ram).map fun ram =>
    { mem with ram := ram, log := mem.transfer dst n value :: mem.log }

def memset (mem : MappedMem) (dst : Nat) (c : UInt8) (n : Nat) :
    Option MappedMem :=
  mem.storeBytes dst n fun _ => c

def memcpy (mem : MappedMem) (dst : Nat) (src : List UInt8) :
    Option MappedMem :=
  mem.storeBytes dst src.length fun i => src.getD i 0

/-- `vfs_read` of a stored file: the bytes for the buffer, or `none` for the
result -1.  The outer `none` is a read from the keyboard or a pipe, which can
sleep and is not followed here. -/
def vfsReadStored (store : Store) (f : Ref) (bufNull : Bool) (len : Nat) :
    Option (Option (List UInt8) × Store) :=
  let file := store.files f
  if bufNull = true ∨ len = 0 then some (none, store)
  else
    match (store.vnodes file.vnode).ops with
    | .ramfs =>
        match ramfsRead store file.vnode len file.offset with
        | none => some (none, store)
        | some bytes =>
            let offset := u32 (file.offset + bytes.length)
            some (some bytes, if 0 < i32 bytes.length
              then store.setFile f { file with offset := offset } else store)
    | .stdin => none
    | .pipeRead => none
    | _ => some (none, store)

/-- Read at a position of the file. -/
def elfReadAt (store : Store) (f : Ref) (bufNull : Bool) (len offset : Nat) :
    Option (Option (List UInt8) × Store) :=
  vfsReadStored (store.setFile f { store.files f with offset := offset }) f
    bufNull len

/-- One round of the loop over the pages of a segment: a page that is mapped
already is left as it is, another one gets a zeroed frame.  `false` is out of
memory. -/
def mapSegmentPage (mem : MappedMem) (page : Nat) : Option (Bool × MappedMem) :=
  if vmmIsMapped mem.paging page then some (true, mem)
  else
    let (frame, pmm) := pmmAllocFrame mem.paging.pmm
    let paging := { mem.paging with pmm := pmm }
    if frame = 0 then some (false, { mem with paging := paging })
    else
      match vmmMapPage paging page frame vmmKernelRw with
      | none => none
      | some paging =>
          (memset { mem with paging := paging } page 0 pageSize).map
            fun mem => (true, mem)

/-- Everything a round can come to. -/
theorem mapSegmentPage_cases {mem next : MappedMem} {page : Nat} {ok : Bool}
    (hmap : mapSegmentPage mem page = some (ok, next)) :
    (vmmIsMapped mem.paging page = true ∧ ok = true ∧ next = mem) ∨
      vmmIsMapped mem.paging page ≠ true ∧ ∃ frame pmm,
        pmmAllocFrame mem.paging.pmm = (frame, pmm) ∧
          (frame = 0 ∧ ok = false ∧
            next = { mem with paging := { mem.paging with pmm := pmm } } ∨
          frame ≠ 0 ∧ ok = true ∧ ∃ paging,
            vmmMapPage { mem.paging with pmm := pmm } page frame vmmKernelRw =
              some paging ∧
            memset { mem with paging := paging } page 0 pageSize =
              some next) := by
  unfold mapSegmentPage at hmap
  rcases halloc : pmmAllocFrame mem.paging.pmm with ⟨frame, pmm⟩
  rw [halloc] at hmap
  dsimp only at hmap
  split_ifs at hmap with hmapped hzero
  · obtain ⟨rfl, rfl⟩ := Prod.mk.inj (Option.some.inj hmap)
    exact .inl ⟨hmapped, rfl, rfl⟩
  · obtain ⟨rfl, rfl⟩ := Prod.mk.inj (Option.some.inj hmap)
    exact .inr ⟨hmapped, frame, pmm, rfl, .inl ⟨hzero, rfl, rfl⟩⟩
  · rcases hpaging : vmmMapPage { mem.paging with pmm := pmm } page frame
        vmmKernelRw with _ | paging
    · rw [hpaging] at hmap
      contradiction
    · rw [hpaging] at hmap
      obtain ⟨next', hset, heq⟩ := Option.map_eq_some_iff.mp hmap
      obtain ⟨rfl, rfl⟩ := Prod.mk.inj heq
      exact .inr ⟨hmapped, frame, pmm, rfl,
        .inr ⟨hzero, rfl, paging, hpaging, hset⟩⟩

/-- The loop over the pages in `[page, pageEnd)`. -/
def mapSegmentPages (mem : MappedMem) (page pageEnd : Nat) :
    Option (Bool × MappedMem) :=
  if page < pageEnd then
    match mapSegmentPage mem page with
    | none => none
    | some (false, mem) => some (false, mem)
    | some (true, mem) => mapSegmentPages mem (page + pageSize) pageEnd
  else some (true, mem)
termination_by pageEnd - page
decreasing_by
  simp only [pageSize]
  omega

/-- The last page of a segment, rounded up in 32 bits. -/
def Elf32Phdr.pageEnd (ph : Elf32Phdr) : Nat :=
  pageFloor (u32 (ph.pVaddr + ph.pMemsz + pageSize - 1))

/-- Copy the file image of a segment to its address; a short read fails after
the bytes it has were copied. -/
def copySegment (state : LoadState) (f : Ref) (ph : Elf32Phdr) :
    Option (Bool × LoadState) :=
  match elfReadAt state.store f (ph.pVaddr = 0) ph.pFilesz ph.pOffset with
  | none => none
  | some (none, store) => some (false, { state with store := store })
  | some (some bytes, store) =>
      (memcpy state.mem ph.pVaddr bytes).map fun mem =>
        (decide (0 ≤ i32 bytes.length ∧ ph.pFilesz ≤ bytes.length), ⟨store, mem⟩)

def elfLoadSegment (state : LoadState) (f : Ref) (ph : Elf32Phdr) :
    Option (Bool × LoadState) :=
  if ph.pMemsz < ph.pFilesz then some (false, state)
  else if ph.pMemsz = 0 then some (true, state)
  else
    match mapSegmentPages state.mem (pageFloor ph.pVaddr) ph.pageEnd with
    | none => none
    | some (false, mem) => some (false, { state with mem := mem })
    | some (true, mem) =>
        let state := { state with mem := mem }
        if ph.pFilesz = 0 then some (true, state) else copySegment state f ph

end Orion
