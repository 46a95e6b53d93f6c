/-
The kernel's dynamic objects.  The heap is a store of typed objects: an
allocation takes a fresh reference or is refused, a freed object keeps its
contents but is no longer live.  Which allocations are refused is not known
in advance.
-/
import Orion.Pipe

namespace Orion

open MachineInt

/-- A pointer to a heap object. -/
abbrev Ref := Nat

/-- What a heap object was allocated for. -/
inductive ObjKind where
  | file
  | vnode
  | pipe
  | pipeEnd
  | inode
  | dirent
  | buffer
  | kstack
  deriving DecidableEq, Repr

inductive VnodeType where
  | file
  | dir
  | dev
  | pipe
  deriving DecidableEq, Repr, Inhabited

/-- The operation tables. -/
inductive VfsOps where
  | ramfs
  | stdin
  | stdout
  | stderr
  | pipeRead
  | pipeWrite
  deriving DecidableEq, Repr, Inhabited

structure Vnode where
  type : VnodeType
  refcount : Nat
  size : Nat
  ops : VfsOps
  data : Option Ref
  deriving Inhabited

structure File where
  vnode : Ref
  offset : Nat
  flags : UInt32
  refcount : Nat
  deriving Inhabited

structure PipeEnd where
  pipe : Ref
  isWrite : Bool
  deriving Inhabited

/-- A directory entry, with the heap object that holds it. -/
structure Dirent where
  self : Ref
  name : List UInt8
  vnode : Ref

/-- The inode of a ramfs vnode; `children` lists the directory entries in the
order in which they are linked. -/
structure Inode where
  buf : Option Ref
  capacity : Nat
  children : List Dirent
  childCount : Nat
  deriving Inhabited

structure Mount where
  path : List UInt8
  root : Ref

/-- The heap objects and the statics of the file system. -/
structure Store where
  /-- the reference the next allocation gets -/
  next : Nat
  /-- the live objects -/
  cells : Ref → Option ObjKind
  /-- every argument of `kfree`, latest first -/
  freed : List Ref
  /-- the number of allocations asked for -/
  requests : Nat
  /-- the requests that find no memory -/
  refuses : Nat → Bool
  files : Ref → File
  vnodes : Ref → Vnode
  ends : Ref → PipeEnd
  pipes : Ref → Pipe
  inodes : Ref → Inode
  bytes : Ref → Nat → UInt8
  mounts : List Mount
  ramfsRoot : Option Ref
  stdinVnode : Option Ref
  stdoutVnode : Option Ref
  stderrVnode : Option Ref

namespace Store

variable (store : Store)

/-- Is there a live object of this kind at `ref`? -/
def isLive (kind : ObjKind) (ref : Ref) : Bool := store.cells ref == some kind

/-- The request is counted; there is no memory for it. -/
def refuse : Store := { store with requests := store.requests + 1 }

/-- The request takes the next reference. -/
def grant (kind : ObjKind) : Store :=
  { store with
    requests := store.requests + 1
    next := store.next + 1
    cells := Function.update store.cells store.next (some kind) }

def kmalloc (kind : ObjKind) : Option Ref × Store :=
  if store.refuses store.requests then (none, store.refuse)
  else (some store.next, store.grant kind)

def kfree (ref : Ref) : Store :=
  { store with
    cells := Function.update store.cells ref none
    freed := ref :: store.freed }

def setFile (ref : Ref) (file : File) : Store :=
  { store with files := Function.update store.files ref file }

def setVnode (ref : Ref) (vnode : Vnode) : Store :=
  { store with vnodes := Function.update store.vnodes ref vnode }

def setEnd (ref : Ref) (pipeEnd : PipeEnd) : Store :=
  { store with ends := Function.update store.ends ref pipeEnd }

def setPipe (ref : Ref) (pipe : Pipe) : Store :=
  { store with pipes := Function.update store.pipes ref pipe }

def setInode (ref : Ref) (inode : Inode) : Store :=
  { store with inodes := Function.update store.inodes ref inode }

def setBytes (ref : Ref) (bytes : Nat → UInt8) : Store :=
  { store with bytes := Function.update store.bytes ref bytes }

/-- `kfree` of a pointer that may be null. -/
def kfreeOption (ref : Option Ref) : Store :=
  match ref with
  | none => store
  | some ref => store.kfree ref

end Store

end Orion
