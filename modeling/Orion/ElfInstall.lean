/-
Loading as a function of the bytes of the file: the loader installs the
segments of the program header table one after the other.  The open file
carries these bytes unchanged through the whole load.
-/
import Orion.Elf
import Orion.StoreTypes

namespace Orion

open MachineInt ByteMem BlockStore

/-- The contents of a regular file. -/
structure FileContent where
  size : Nat
  byte : Nat → UInt8

def contentOf (store : Store) (v : Ref) : FileContent where
  size := (store.vnodes v).size
  byte := store.bytes ((store.inodes (inodeOf store v)).buf.getD 0)

namespace FileContent

variable (content : FileContent)

/-- The bytes `ramfs_read` copies. -/
def read (len offset : Nat) : List UInt8 :=
  if content.size ≤ offset then []
  else
    (List.range (if len < content.size - offset then len
      else content.size - offset)).map fun i => content.byte (offset + i)

def ehdr : Elf32Ehdr := readEhdr (content.read sizeofEhdr 0)

def phdr (i : Nat) : Elf32Phdr :=
  readPhdr (content.read sizeofPhdr
    (u32 (content.ehdr.ePhoff + u32 (i * content.ehdr.ePhentsize))))

/-- Install the file image of a segment. -/
def copyImage (ph : Elf32Phdr) (mem : MappedMem) : Option (Bool × MappedMem) :=
  if ph.pVaddr = 0 then some (false, mem)
  else
    let bytes := content.read ph.pFilesz ph.pOffset
    (memcpy mem ph.pVaddr bytes).map fun mem =>
      (decide (0 ≤ i32 bytes.length ∧ ph.pFilesz ≤ bytes.length), mem)

/-- Install one segment; `false` is a refused one. -/
def install (ph : Elf32Phdr) (mem : MappedMem) : Option (Bool × MappedMem) :=
  if ph.pMemsz < ph.pFilesz then some (false, mem)
  else if ph.pMemsz = 0 then some (true, mem)
  else
    match mapSegmentPages mem (pageFloor ph.pVaddr) ph.pageEnd with
    | none => none
    | some (false, mem) => some (false, mem)
    | some (true, mem) =>
        if ph.pFilesz = 0 then some (true, mem) else content.copyImage ph mem

end FileContent

/-- The file object reads the bytes of the regular file `v`. -/
structure Opened (store : Store) (f v : Ref) (content : FileContent) : Prop where
  vnode : (store.files f).vnode = v
  type : (store.vnodes v).type = .file
  ops : (store.vnodes v).ops = .ramfs
  content : contentOf store v = content

section Refinement

variable {store store' : Store} {state final : LoadState} {f v : Ref}
  {content : FileContent}

theorem Opened.setFile (hopened : Opened store f v content) {file : File}
    (hvnode : file.vnode = v) : Opened (store.setFile f file) f v content := by
  refine ⟨?_, hopened.type, hopened.ops, hopened.content⟩
  simp only [Store.setFile, Function.update_self]
  exact hvnode

end Refinement

end Orion
