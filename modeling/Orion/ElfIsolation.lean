/-
What a load does to the kernel's own memory.  All it stores in physical memory
are the block stores of its log: pages it zeroes and file images it copies,
both at addresses the file chooses.
-/
import Orion.ElfInstall
import Orion.Kheap
import Orion.Syscall

namespace Orion

open MachineInt ByteMem BlockStore

section Install

variable {content : FileContent} {Inv : MappedMem → Prop} {mem final : MappedMem}

end Install

/-- The block store zeroes a page of the segment. -/
def Zeroes (ph : Elf32Phdr) (transfer : Transfer Nat UInt8) : Prop :=
  ∃ (mem : MappedMem) (page : Nat), pageFloor ph.pVaddr ≤ page ∧
    page < ph.pageEnd ∧ page % pageSize = 0 ∧
    transfer = mem.transfer page pageSize fun _ => 0

/-- The block store copies what the file has of the segment's image. -/
def Copies (content : FileContent) (ph : Elf32Phdr)
    (transfer : Transfer Nat UInt8) : Prop :=
  ∃ mem : MappedMem, transfer = mem.transfer ph.pVaddr
    (content.read ph.pFilesz ph.pOffset).length
    fun i => (content.read ph.pFilesz ph.pOffset).getD i 0

/-- Physical memory is the memory before the call under the stores of the log,
and these are the stores of the segments `phs`. -/
structure Logged (content : FileContent) (phs : List Elf32Phdr) (start : Mem)
    (mem : MappedMem) : Prop where
  ram : ∀ p, mem.ram p = (lastStored mem.log p).getD (start p)
  log : ∀ transfer ∈ mem.log, ∃ ph ∈ phs,
    Zeroes ph transfer ∨ Copies content ph transfer

section Logged

variable {content : FileContent} {phs : List Elf32Phdr} {start : Mem}
  {mem next : MappedMem}

theorem Logged.storeBytes (hlogged : Logged content phs start mem) {dst n : Nat}
    {value : Nat → UInt8} {ph : Elf32Phdr} (hph : ph ∈ phs)
    (hkind : Zeroes ph (mem.transfer dst n value) ∨
      Copies content ph (mem.transfer dst n value))
    (hstore : mem.storeBytes dst n value = some next) :
    Logged content phs start next := by
  obtain ⟨ram, hrun, rfl⟩ := Option.map_eq_some_iff.mp hstore
  refine ⟨fun p => ?_, ?_⟩
  · dsimp only
    rw [lastStored_cons_getD, run_apply hrun p, hlogged.ram p]
  · exact List.forall_mem_cons.mpr ⟨⟨ph, hph, hkind⟩, hlogged.log⟩

theorem Logged.setPaging (hlogged : Logged content phs start mem)
    (paging : Paging) : Logged content phs start { mem with paging := paging } :=
  ⟨hlogged.ram, hlogged.log⟩

theorem Logged.mapSegmentPage (hlogged : Logged content phs start mem)
    {ph : Elf32Phdr} (hph : ph ∈ phs) {page : Nat} {ok : Bool}
    (hlow : pageFloor ph.pVaddr ≤ page) (hhigh : page < ph.pageEnd)
    (haligned : page % pageSize = 0)
    (hmap : Orion.mapSegmentPage mem page = some (ok, next)) :
    Logged content phs start next := by
  rcases mapSegmentPage_cases hmap with ⟨-, -, rfl⟩ |
    ⟨-, frame, pmm, -, ⟨-, -, rfl⟩ | ⟨-, -, paging, -, hstore⟩⟩
  · exact hlogged
  · exact hlogged.setPaging _
  · exact (hlogged.setPaging paging).storeBytes hph
      (.inl ⟨_, page, hlow, hhigh, haligned, rfl⟩) hstore

theorem Logged.copyImage (hlogged : Logged content phs start mem)
    {ph : Elf32Phdr} (hph : ph ∈ phs) {ok : Bool}
    (hcopy : content.copyImage ph mem = some (ok, next)) :
    Logged content phs start next := by
  unfold FileContent.copyImage at hcopy
  split_ifs at hcopy with hnull
  · obtain ⟨-, rfl⟩ := Prod.mk.inj (Option.some.inj hcopy)
    exact hlogged
  · obtain ⟨next', hstore, heq⟩ := Option.map_eq_some_iff.mp hcopy
    obtain ⟨-, rfl⟩ := Prod.mk.inj heq
    exact hlogged.storeBytes hph (.inr ⟨mem, rfl⟩) hstore

end Logged

namespace ElfIsolationWitness

/-- The path `/x`. -/
def path : List UInt8 := [slash, 0x78]

def word (n : Nat) : List UInt8 :=
  (List.range 4).map fun i => UInt8.ofNat (n / 256 ^ i)

/-- The identity map of `vmm_init`, with its directory at `0x1000` and its table
at `0x2000`, and a page at `0x08000000` with the frame at `0x400000`. -/
def tables : PhysMem := fun addr =>
  if addr = 0x1000 then 0x2003#32
  else if addr = 0x1080 then 0x3003#32
  else if addr = 0x3000 then 0x400003#32
  else if 0x2000 ≤ addr ∧ addr < 0x3000 then
    BitVec.ofNat 32 ((addr - 0x2000) / 4 * pageSize + 3)
  else 0#32

/-- All frames are in use, and every byte is `fill`. -/
def mem (fill : UInt8) : MappedMem :=
  ⟨⟨⟨fun _ => BitVec.allOnes 32, 0, 0, 1⟩, tables, 0x1000, 0x1000⟩,
    fun _ => fill, []⟩

end ElfIsolationWitness

end Orion
