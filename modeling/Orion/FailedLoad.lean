/-
What a failed load leaves behind.  `elf_load` closes its file on every way out
and undoes nothing else: the pages that were mapped before the failure stay
mapped, with their frames and tables.
-/
import Orion.ElfMappings
import Orion.OpenFailure

namespace Orion

open MachineInt

section Memory

variable {state final : LoadState} {content : FileContent} {spaces : List Nat}
  {region : Nat → Prop} {start mem next : MappedMem} {phs : List Elf32Phdr}

end Memory

/-- Only the position of the open file has changed. -/
def Repositions (f : Ref) (s s' : Store) : Prop :=
  ∃ offset, s' = s.setFile f { s.files f with offset := offset }

section Files

variable {state final : LoadState} {s s' s'' : Store} {f : Ref}

theorem Repositions.refl (f : Ref) (s : Store) : Repositions f s s :=
  ⟨(s.files f).offset, by simp [Store.setFile]⟩

theorem Repositions.trans (hfirst : Repositions f s s')
    (hsecond : Repositions f s' s'') : Repositions f s s'' := by
  obtain ⟨offset, rfl⟩ := hfirst
  obtain ⟨offset', rfl⟩ := hsecond
  exact ⟨offset', by simp [Store.setFile]⟩

end Files

section CutShort

variable {state : LoadState} {mem next : MappedMem} {f v : Ref} {page : Nat}
  {content : FileContent} {ph : Elf32Phdr}

end CutShort

namespace FailedLoadWitness

open ElfIsolationWitness

/-- The tables of the other examples, and 32 free frames at 5 MB. -/
def memory : MappedMem :=
  { mem 0 with paging := { (mem 0).paging with
      pmm := ⟨fun word => if word = 40 then 0#32 else BitVec.allOnes 32, 1, 0,
        1280⟩ } }

/-- What the loader reads of the file. -/
structure FileView where
  target : Option Ref
  isOpened : Bool
  isFile : Bool
  ehdrLength : Nat
  isValid : Bool
  phnum : Nat
  phdrLength : Nat
  phdr : Elf32Phdr
  image : List UInt8
  deriving DecidableEq

def view (store : Store) : FileView where
  target := vfsResolve store path
  isOpened := (vfsOpen store path oRdonly).1.isSome
  isFile := (store.vnodes 13).type = .file ∧ (store.vnodes 13).ops = .ramfs
  ehdrLength := ((contentOf store 13).read sizeofEhdr 0).length
  isValid := (contentOf store 13).ehdr.valid
  phnum := (contentOf store 13).ehdr.ePhnum
  phdrLength := ((contentOf store 13).read sizeofPhdr
    (u32 ((contentOf store 13).ehdr.ePhoff +
      u32 (0 * (contentOf store 13).ehdr.ePhentsize)))).length
  phdr := (contentOf store 13).phdr 0
  image := (contentOf store 13).read ((contentOf store 13).phdr 0).pFilesz
    ((contentOf store 13).phdr 0).pOffset

end FailedLoadWitness

end Orion
