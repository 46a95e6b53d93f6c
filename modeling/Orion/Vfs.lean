/-
The file-system layer: vnodes, open files, the in-memory file system, the
device nodes and path resolution.  Strings are lists of bytes without the
terminating zero.  Closing a pipe end can wake a sleeping process; such
functions return the processes to wake, in order.
-/
import Orion.Store

namespace Orion

open MachineInt

def oRdonly : UInt32 := 0x00
def oWronly : UInt32 := 0x01
def oRdwr : UInt32 := 0x02
def oCreat : UInt32 := 0x04
def oTrunc : UInt32 := 0x08
def oAppend : UInt32 := 0x10

def vfsMountMax : Nat := 8
def vfsPathMax : Nat := 128
def vfsNameMax : Nat := 64

def slash : UInt8 := 0x2F

def vnodeAlloc (store : Store) (type : VnodeType) (ops : VfsOps)
    (data : Option Ref) : Option Ref × Store :=
  match store.kmalloc .vnode with
  | (none, store) => (none, store)
  | (some v, store) => (some v, store.setVnode v ⟨type, 0, 0, ops, data⟩)

def vnodeRef (store : Store) (v : Ref) : Store :=
  let vnode := store.vnodes v
  store.setVnode v { vnode with refcount := u32 (vnode.refcount + 1) }

def vnodeUnref (store : Store) (v : Ref) : Store :=
  let vnode := store.vnodes v
  store.setVnode v { vnode with refcount := vnode.refcount - 1 }

/-- The inode behind a ramfs vnode. -/
def inodeOf (store : Store) (v : Ref) : Ref := (store.vnodes v).data.getD 0

def ramfsNewVnode (store : Store) (type : VnodeType) : Option Ref × Store :=
  match store.kmalloc .inode with
  | (none, store) => (none, store)
  | (some ino, store) =>
      match vnodeAlloc (store.setInode ino ⟨none, 0, [], 0⟩) type .ramfs
          (some ino) with
      | (none, store) => (none, store.kfree ino)
      | (some v, store) => (some v, store)

/-- Opening with `O_TRUNC` empties a regular file. -/
def ramfsOpen (store : Store) (v : Ref) (flags : UInt32) : Store :=
  let vnode := store.vnodes v
  if flags &&& oTrunc ≠ 0 ∧ vnode.type = .file then
    let ino := inodeOf store v
    let inode := store.inodes ino
    let store := store.setVnode v { vnode with size := 0 }
    let store := store.kfreeOption inode.buf
    store.setInode ino { inode with capacity := 0, buf := none }
  else store

/-- The bytes read, or `none` for the error result. -/
def ramfsRead (store : Store) (v : Ref) (len offset : Nat) :
    Option (List UInt8) :=
  let vnode := store.vnodes v
  if vnode.type ≠ .file then none
  else if vnode.size ≤ offset then some []
  else
    let avail := vnode.size - offset
    let n := if len < avail then len else avail
    let bytes := store.bytes ((store.inodes (inodeOf store v)).buf.getD 0)
    some ((List.range n).map fun i => bytes (offset + i))

/-- The doubling loop of `ramfs_write`; a capacity of zero never grows. -/
def growCapacity (stop : Nat) : Nat → Nat → Option Nat
  | 0, _ => none
  | fuel + 1, capacity =>
      if capacity < stop then growCapacity stop fuel (u32 (capacity * 2))
      else some capacity

/-- A buffer with room up to `stop`.  The outer `none` is a growth loop that
never ends, the inner one a refused allocation. -/
def ramfsGrow (store : Store) (v : Ref) (stop : Nat) :
    Option (Option Ref × Store) :=
  let vnode := store.vnodes v
  let ino := inodeOf store v
  let inode := store.inodes ino
  if inode.capacity < stop then
    (growCapacity stop 64
        (if inode.capacity = 0 then 64 else inode.capacity)).map
      fun capacity =>
        match store.kmalloc .buffer with
        | (none, store) => (none, store)
        | (some new, store) =>
            let old := store.bytes (inode.buf.getD 0)
            let fresh := store.bytes new
            let store := store.setBytes new fun i =>
              if inode.buf.isSome ∧ i < vnode.size then old i else fresh i
            let store := store.kfreeOption inode.buf
            (some new, store.setInode ino
              { inode with buf := some new, capacity := capacity })
  else some (some (inode.buf.getD 0), store)

/-- Copy the bytes into the buffer and extend the file up to `stop`. -/
def ramfsFill (store : Store) (v buf : Ref) (src : Nat → UInt8)
    (len offset stop : Nat) : Store :=
  let bytes := store.bytes buf
  let store := store.setBytes buf fun i =>
    if offset ≤ i ∧ i < offset + len then src (i - offset) else bytes i
  let vnode := store.vnodes v
  if vnode.size < stop then store.setVnode v { vnode with size := stop }
  else store

/-- Store `len` bytes of `src` at `offset`; the result is `len`, or -1. -/
def ramfsWrite (store : Store) (v : Ref) (src : Nat → UInt8)
    (len offset : Nat) : Option (Int × Store) :=
  if (store.vnodes v).type ≠ .file then some (-1, store)
  else
    let stop := u32 (offset + len)
    (ramfsGrow store v stop).map fun grown =>
      match grown with
      | (none, store) => (-1, store)
      | (some buf, store) =>
          (i32 len, ramfsFill store v buf src len offset stop)

def ramfsLookup (store : Store) (dir : Ref) (name : List UInt8) : Option Ref :=
  if (store.vnodes dir).type ≠ .dir then none
  else
    ((store.inodes (inodeOf store dir)).children.find? fun entry =>
      entry.name = name).map Dirent.vnode

/-- Link a new entry at the front of the directory; the name is cut at 63
bytes. -/
def ramfsAddDirent (store : Store) (dir : Ref) (name : List UInt8)
    (child : Ref) : Bool × Store :=
  match store.kmalloc .dirent with
  | (none, store) => (false, store)
  | (some d, store) =>
      let ino := inodeOf store dir
      let inode := store.inodes ino
      (true, store.setInode ino { inode with
        children := ⟨d, name.take (vfsNameMax - 1), child⟩ :: inode.children
        childCount := u32 (inode.childCount + 1) })

def ramfsCreate (store : Store) (dir : Ref) (name : List UInt8)
    (type : VnodeType) : Option Ref × Store :=
  if (store.vnodes dir).type ≠ .dir then (none, store)
  else
    match ramfsLookup store dir name with
    | some existing => (some existing, store)
    | none =>
        match ramfsNewVnode store type with
        | (none, store) => (none, store)
        | (some child, store) =>
            match ramfsAddDirent store dir name child with
            | (false, store) =>
                (none, (store.kfreeOption (store.vnodes child).data).kfree child)
            | (true, store) => (some child, store)

def ramfsMkdirOp (store : Store) (dir : Ref) (name : List UInt8) :
    Option Ref × Store :=
  ramfsCreate store dir name .dir

/-- The longest mounted path that `path` starts with, at a component
boundary. -/
def findMount (store : Store) (path : List UInt8) : Option Mount :=
  store.mounts.foldl (fun best mount =>
    let mlen := mount.path.length
    let boundary := mount.path = [slash] ∨ path[mlen]? = some slash ∨
      path[mlen]? = none
    if mount.path.isPrefixOf path ∧ boundary ∧
        (best.map fun m => m.path.length).getD 0 < mlen
    then some mount else best) none

def skipSlashes (rest : List UInt8) : List UInt8 :=
  rest.dropWhile (· == slash)

/-- The next component: at most 63 bytes up to a slash. -/
def component (rest : List UInt8) : List UInt8 :=
  (rest.take (vfsNameMax - 1)).takeWhile (· != slash)

/-- The component loop of `vfs_resolve`; every round consumes a byte. -/
def resolveLoop (store : Store) : Nat → Ref → List UInt8 → Option Ref
  | _, cur, [] => some cur
  | 0, _, _ :: _ => none
  | fuel + 1, cur, rest =>
      let name := component rest
      if (store.vnodes cur).ops = .ramfs then
        match ramfsLookup store cur name with
        | none => none
        | some next =>
            resolveLoop store fuel next (skipSlashes (rest.drop name.length))
      else none

def vfsResolve (store : Store) (path : List UInt8) : Option Ref :=
  if path.head? ≠ some slash then none
  else
    match findMount store path with
    | none => none
    | some mount =>
        let rest := skipSlashes (path.drop mount.path.length)
        resolveLoop store rest.length mount.root rest

/-- Split a path at the last slash of its first 127 bytes. -/
def splitPath (path : List UInt8) : Option (List UInt8 × List UInt8) :=
  let parent := path.take (vfsPathMax - 1)
  match (List.range parent.length).reverse.find? fun i =>
      parent[i]? == some slash with
  | none => none
  | some i =>
      some (if i = 0 then [slash] else parent.take i, path.drop (i + 1))

/-- The directory a new entry at `path` goes into, and its name there. -/
def parentDir (store : Store) (path : List UInt8) :
    Option (Ref × List UInt8) :=
  match splitPath path with
  | none => none
  | some (parent, leaf) =>
      match vfsResolve store parent with
      | none => none
      | some dir =>
          if (store.vnodes dir).type = .dir then some (dir, leaf) else none

/-- Open a vnode; a null vnode and a refused allocation give null. -/
def vfsOpenVnode (store : Store) (v : Option Ref) (flags : UInt32) :
    Option Ref × Store :=
  match v with
  | none => (none, store)
  | some v =>
      let store := if (store.vnodes v).ops = .ramfs
        then ramfsOpen store v flags else store
      match store.kmalloc .file with
      | (none, store) => (none, store)
      | (some f, store) =>
          let offset := if flags &&& oAppend ≠ 0
            then (store.vnodes v).size else 0
          (some f, vnodeRef (store.setFile f ⟨v, offset, flags, 1⟩) v)

def vfsOpen (store : Store) (path : List UInt8) (flags : UInt32) :
    Option Ref × Store :=
  match vfsResolve store path with
  | some v => vfsOpenVnode store (some v) flags
  | none =>
      if flags &&& oCreat = 0 then (none, store)
      else
        match parentDir store path with
        | none => (none, store)
        | some (dir, filename) =>
            match ramfsCreate store dir filename .file with
            | (none, store) => (none, store)
            | (some newfile, store) => vfsOpenVnode store (some newfile) flags

def vfsMkdir (store : Store) (path : List UInt8) : Bool × Store :=
  if path.head? ≠ some slash then (false, store)
  else
    match parentDir store path with
    | none => (false, store)
    | some (dir, dirname) =>
        match ramfsMkdirOp store dir dirname with
        | (none, store) => (false, store)
        | (some _, store) => (true, store)

/-- Free the shared ring once both ends are closed. -/
def pipeMaybeFree (store : Store) (p : Ref) : Store :=
  if (store.pipes p).readers = 0 ∧ (store.pipes p).writers = 0
  then store.kfree p else store

/-- The close handler of a pipe end: drop the end from the pipe, wake the
peer, and free the end, perhaps the pipe, and the vnode. -/
def pipeClose (store : Store) (v : Ref)
    (closeEnd : Pipe → List Nat × Pipe) : List Nat × Store :=
  let vnode := store.vnodes v
  match vnode.data with
  | none => ([], store)
  | some e =>
      let p := (store.ends e).pipe
      let closed := closeEnd (store.pipes p)
      let store := store.setPipe p closed.2
      let store := store.kfree e
      let store := store.setVnode v { vnode with data := none }
      let store := pipeMaybeFree store p
      (closed.1, store.kfree v)

def pipeCloseRead (store : Store) (v : Ref) : List Nat × Store :=
  pipeClose store v pipeCloseReadEnd

def pipeCloseWrite (store : Store) (v : Ref) : List Nat × Store :=
  pipeClose store v pipeCloseWriteEnd

/-- The close entry of a vnode's operation table; the devices have none. -/
def closeHandler (store : Store) (v : Ref) : List Nat × Store :=
  match (store.vnodes v).ops with
  | .pipeRead => pipeCloseRead store v
  | .pipeWrite => pipeCloseWrite store v
  | _ => ([], store)

/-- The rest of `vfs_close` for a file that nothing refers to any more. -/
def vfsRelease (store : Store) (f : Ref) : List Nat × Store :=
  let v := (store.files f).vnode
  let closed := closeHandler store v
  (closed.1, (vnodeUnref closed.2 v).kfree f)

/-- Drop one reference to an open file and release it with the last one. -/
def vfsClose (store : Store) (f : Ref) : List Nat × Store :=
  let file := store.files f
  let refcount := sub32 file.refcount 1
  let store := store.setFile f { file with refcount := refcount }
  if 0 < refcount then ([], store) else vfsRelease store f

def vfsMount (store : Store) (path : List UInt8) (root : Ref) : Bool × Store :=
  if vfsMountMax ≤ store.mounts.length then (false, store)
  else
    (true, { store with
      mounts := store.mounts ++ [⟨path.take (vfsPathMax - 1), root⟩] })

def ramfsRegisterDev (store : Store) (path : List UInt8) (dev : Ref) :
    Bool × Store :=
  if path.head? ≠ some slash then (false, store)
  else
    match parentDir store path with
    | none => (false, store)
    | some (dir, leaf) => ramfsAddDirent store dir leaf dev

/-- Create the root directory and mount it. -/
def ramfsInit (store : Store) : Store :=
  match ramfsNewVnode store .dir with
  | (none, store) => store
  | (some root, store) =>
      (vfsMount { store with ramfsRoot := some root } [slash] root).2

/-- The byte strings of `/dev` and its entries. -/
def devPath : List UInt8 := [slash, 0x64, 0x65, 0x76]
def stdinPath : List UInt8 := devPath ++ [slash, 0x73, 0x74, 0x64, 0x69, 0x6E]
def stdoutPath : List UInt8 :=
  devPath ++ [slash, 0x73, 0x74, 0x64, 0x6F, 0x75, 0x74]
def stderrPath : List UInt8 :=
  devPath ++ [slash, 0x73, 0x74, 0x64, 0x65, 0x72, 0x72]

/-- Make `/dev`, allocate the three device vnodes and, if all are there,
register them. -/
def devfsInit (store : Store) : Store :=
  match vfsMkdir store devPath with
  | (false, store) => store
  | (true, store) =>
      let stdin := vnodeAlloc store .dev .stdin none
      let stdout := vnodeAlloc stdin.2 .dev .stdout none
      let stderr := vnodeAlloc stdout.2 .dev .stderr none
      let store := { stderr.2 with
        stdinVnode := stdin.1
        stdoutVnode := stdout.1
        stderrVnode := stderr.1 }
      match stdin.1, stdout.1, stderr.1 with
      | some i, some o, some e =>
          let store := (ramfsRegisterDev store stdinPath i).2
          let store := (ramfsRegisterDev store stdoutPath o).2
          (ramfsRegisterDev store stderrPath e).2
      | _, _, _ => store

end Orion
