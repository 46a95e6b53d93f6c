/-
Descriptor tables, and the creation of a pipe in one.  A function that can
close a pipe end returns the processes it wakes with the new store and table.
-/
import Orion.Vfs

namespace Orion

open MachineInt

def fdMax : Nat := 16

/-- A descriptor table; only the slots below `fdMax` exist. -/
abbrev FdTable := Nat → Option Ref

def FdTable.empty : FdTable := fun _ => none

/-- Open the three device vnodes as descriptors 0, 1 and 2. -/
def fdTableInit (store : Store) : Store × FdTable :=
  let stdin := vfsOpenVnode store store.stdinVnode oRdonly
  let stdout := vfsOpenVnode stdin.2 stdin.2.stdoutVnode oWronly
  let stderr := vfsOpenVnode stdout.2 stdout.2.stderrVnode oWronly
  (stderr.2, fun fd =>
    if fd = 0 then stdin.1
    else if fd = 1 then stdout.1
    else if fd = 2 then stderr.1
    else none)

def fdClose (store : Store) (table : FdTable) (fd : Nat) :
    List Nat × Store × FdTable :=
  if fdMax ≤ fd then ([], store, table)
  else
    match table fd with
    | none => ([], store, table)
    | some f =>
        let closed := vfsClose store f
        (closed.1, closed.2, Function.update table fd none)

/-- Close the descriptors of a list one after the other. -/
def fdCloseList (store : Store) (table : FdTable) :
    List Nat → List Nat × Store × FdTable
  | [] => ([], store, table)
  | fd :: rest =>
      let first := fdClose store table fd
      let others := fdCloseList first.2.1 first.2.2 rest
      (first.1 ++ others.1, others.2)

def fdTableCloseAll (store : Store) (table : FdTable) :
    List Nat × Store × FdTable :=
  fdCloseList store table (List.range fdMax)

/-- Count one more descriptor on an open file. -/
def fileRef (store : Store) (f : Ref) : Store :=
  let file := store.files f
  store.setFile f { file with refcount := u32 (file.refcount + 1) }

/-- Share the descriptors of a list with another table. -/
def fdShareList (store : Store) (src dst : FdTable) :
    List Nat → Store × FdTable
  | [] => (store, dst)
  | fd :: rest =>
      let store := match src fd with
        | none => store
        | some f => fileRef store f
      fdShareList store src (Function.update dst fd (src fd)) rest

def fdTableClone (store : Store) (src dst : FdTable) : Store × FdTable :=
  fdShareList store src dst (List.range fdMax)

/-- Put the file into the lowest free slot. -/
def fdInstall (table : FdTable) (f : Ref) : Option (Nat × FdTable) :=
  ((List.range fdMax).find? fun fd => (table fd).isNone).map fun fd =>
    (fd, Function.update table fd (some f))

/-- What a call of `pipe_create` leaves: its result, the processes woken, the
store and the table. -/
structure PipeCreated where
  fds : Option (Nat × Nat)
  woken : List Nat
  store : Store
  table : FdTable

/-- The clean-up labels of `pipe_create`, each falling through to the next. -/
def errFreePipe (store : Store) (pipe : Ref) : Store := store.kfree pipe

def errFreeRend (store : Store) (pipe rend : Ref) : Store :=
  errFreePipe (store.kfree rend) pipe

def errFreeRv (store : Store) (pipe rend rv : Ref) : Store :=
  errFreeRend (store.kfree rv) pipe rend

def errFreeWend (store : Store) (pipe rend rv wend : Ref) : Store :=
  errFreeRv (store.kfree wend) pipe rend rv

def errFreeWv (store : Store) (pipe rend rv wend wv : Ref) : Store :=
  errFreeWend (store.kfree wv) pipe rend rv wend

/-- `pipe_create` from the installation of the two open files on. -/
def pipeInstall (store : Store) (table : FdTable)
    (pipe rend rv wend wv rf wf : Ref) : PipeCreated :=
  match fdInstall table rf with
  | none =>
      let read := vfsClose store rf
      let write := vfsClose read.2 wf
      ⟨none, read.1 ++ write.1, errFreeWv write.2 pipe rend rv wend wv, table⟩
  | some (rfd, table) =>
      match fdInstall table wf with
      | none =>
          let read := fdClose store table rfd
          let write := vfsClose read.2.1 wf
          ⟨none, read.1 ++ write.1, errFreeWv write.2 pipe rend rv wend wv,
            read.2.2⟩
      | some (wfd, table) => ⟨some (rfd, wfd), [], store, table⟩

/-- `pipe_create` from the opening of the write end on. -/
def pipeOpenWrite (store : Store) (table : FdTable)
    (pipe rend rv wend wv rf : Ref) : PipeCreated :=
  match vfsOpenVnode store (some wv) oWronly with
  | (none, store) =>
      let read := vfsClose store rf
      ⟨none, read.1, errFreeWv read.2 pipe rend rv wend wv, table⟩
  | (some wf, store) => pipeInstall store table pipe rend rv wend wv rf wf

/-- `pipe_create` from the opening of the read end on. -/
def pipeOpenRead (store : Store) (table : FdTable)
    (pipe rend rv wend wv : Ref) : PipeCreated :=
  match vfsOpenVnode store (some rv) oRdonly with
  | (none, store) =>
      ⟨none, [], errFreeWv store pipe rend rv wend wv, table⟩
  | (some rf, store) => pipeOpenWrite store table pipe rend rv wend wv rf

def pipeCreate (store : Store) (table : FdTable) : PipeCreated :=
  match store.kmalloc .pipe with
  | (none, store) => ⟨none, [], store, table⟩
  | (some pipe, store) =>
      match (store.setPipe pipe Pipe.fresh).kmalloc .pipeEnd with
      | (none, store) => ⟨none, [], errFreePipe store pipe, table⟩
      | (some rend, store) =>
          match vnodeAlloc (store.setEnd rend ⟨pipe, false⟩) .pipe .pipeRead
              (some rend) with
          | (none, store) => ⟨none, [], errFreeRend store pipe rend, table⟩
          | (some rv, store) =>
              match store.kmalloc .pipeEnd with
              | (none, store) =>
                  ⟨none, [], errFreeRv store pipe rend rv, table⟩
              | (some wend, store) =>
                  match vnodeAlloc (store.setEnd wend ⟨pipe, true⟩) .pipe
                      .pipeWrite (some wend) with
                  | (none, store) =>
                      ⟨none, [], errFreeWend store pipe rend rv wend, table⟩
                  | (some wv, store) =>
                      pipeOpenRead store table pipe rend rv wend wv

end Orion
