/-
System calls, interrupts and the boot sequence.  A step of the kernel is one
segment: an interrupt or a system call from user mode, or the continuation of
a system call whose process has been switched back to.  Interrupts are
disabled inside the kernel, so they arrive only in user mode.
-/
import Orion.Proc

namespace Orion

open MachineInt

/-- What a system call stores at the caller's pointer argument. -/
inductive Reply where
  | none
  | bytes (data : List UInt8)
  | code (exitCode : Int)
  | fds (rfd wfd : Nat)
  deriving DecidableEq, Repr

/-- How a segment of a system call ends. -/
inductive Outcome where
  | ret (value : Int) (reply : Reply)
  | yield (cont : Cont)
  deriving DecidableEq, Repr

/-- The arguments of a system call as the handler reads them from the saved
registers.  A buffer argument says whether the pointer is non-null; file
descriptors are unsigned, so that a negative one is out of range. -/
inductive Syscall where
  | yield
  | exit (code : Int)
  | getpid
  | sleep (ticks : Nat)
  | fork (entry : Nat)
  | exec (pid entry : Nat)
  | write (fd : Nat) (buf : Option (Nat → UInt8)) (len : Nat)
  | read (fd : Nat) (buf : Bool) (len : Nat)
  | open (path : Option (List UInt8)) (flags : UInt32)
  | close (fd : Nat)
  | pipe (buf : Bool)
  | dup2 (oldfd newfd : Nat)
  | wait (pid : Nat) (outCode : Bool)
  | unknown

section Transfers

variable (k : Kernel)

/-- The end of `vfs_read`: a positive result moves the offset. -/
def readDone (f : Ref) (n : Int) : Kernel :=
  let file := k.store.files f
  if 0 < n then
    k.setStore (k.store.setFile f
      { file with offset := u32 (file.offset + n.toNat) })
  else k

/-- The end of `vfs_write`: a positive result moves the offset and may extend
the file. -/
def writeDone (f : Ref) (n : Int) : Kernel :=
  let file := k.store.files f
  if 0 < n then
    let offset := u32 (file.offset + n.toNat)
    let store := k.store.setFile f { file with offset := offset }
    let vnode := store.vnodes file.vnode
    if vnode.size < offset then
      k.setStore (store.setVnode file.vnode { vnode with size := offset })
    else k.setStore store
  else k

/-- The stdin driver: take what has been typed, or wait for a key. -/
def kbdRead (self : Nat) (f : Ref) (len : Nat) : Outcome × Kernel :=
  if k.keyboard.hasChar then
    let taken := k.keyboard.take len
    let n := i32 taken.1.length
    (.ret n (.bytes taken.1), readDone { k with keyboard := taken.2 } f n)
  else
    let k := blockSelf k self
    (.yield (.kbdRead f len),
      { k with keyboard :=
        { k.keyboard with waiterPid := (k.procs self).pid } })

/-- Put a pipe segment's result into the kernel: the pipe, the wake-ups, and
either the end of the call or the sleep in `pipe_block`. -/
def pipeSegment (self : Nat) (p : Ref) (isWrite : Bool)
    (segment : PipeExit × PipeCall) (cont : Nat → Cont)
    (done : Kernel → Int → Kernel) : Option (Outcome × Kernel) :=
  let k := wakeAll (k.setStore (k.store.setPipe p segment.2.pipe))
    segment.2.woken
  match segment.1 with
  | .endless => none
  | .done n =>
      some (.ret n (if isWrite then .none else .bytes segment.2.data), done k n)
  | .block =>
      some (.yield (cont segment.2.moved), blockSelf (k.setStore
        (k.store.setPipe p (pipeBlock segment.2.pipe isWrite
          (k.procs self).pid))) self)

def pipeReadFrom (self : Nat) (f p : Ref) (len read : Nat) :
    Option (Outcome × Kernel) :=
  pipeSegment k self p false
    (pipeReadOp len (PipeCall.enter (k.store.pipes p) read))
    (.pipeRead f p len) (fun k n => readDone k f n)

def pipeWriteFrom (self : Nat) (f p : Ref) (len : Nat)
    (segment : PipeExit × PipeCall) : Option (Outcome × Kernel) :=
  pipeSegment k self p true segment (.pipeWrite f p len)
    (fun k n => writeDone k f n)

/-- The pipe behind the vnode of a pipe end. -/
def pipeOf (store : Store) (v : Ref) : Ref :=
  (store.ends ((store.vnodes v).data.getD 0)).pipe

def vfsRead (self : Nat) (f : Ref) (len : Nat) : Option (Outcome × Kernel) :=
  let file := k.store.files f
  match (k.store.vnodes file.vnode).ops with
  | .ramfs =>
      match ramfsRead k.store file.vnode len file.offset with
      | none => some (.ret (-1) .none, k)
      | some bytes =>
          let n := i32 bytes.length
          some (.ret n (.bytes bytes), readDone k f n)
  | .stdin => some (kbdRead k self f len)
  | .pipeRead => pipeReadFrom k self f (pipeOf k.store file.vnode) len 0
  | _ => some (.ret (-1) .none, k)

/-- `O_APPEND` moves the offset to the end before a write. -/
def seekAppend (store : Store) (f : Ref) : Store :=
  let file := store.files f
  if file.flags &&& oAppend ≠ 0 then
    store.setFile f { file with offset := (store.vnodes file.vnode).size }
  else store

def vfsWrite (self : Nat) (f : Ref) (src : Nat → UInt8) (len : Nat) :
    Option (Outcome × Kernel) :=
  let v := (k.store.files f).vnode
  match (k.store.vnodes v).ops with
  | .ramfs =>
      let k := k.setStore (seekAppend k.store f)
      (ramfsWrite k.store v src len (k.store.files f).offset).map fun result =>
        (.ret result.1 .none, writeDone (k.setStore result.2) f result.1)
  | .stdout | .stderr =>
      let k := k.setStore (seekAppend k.store f)
      some (.ret (i32 len) .none, writeDone k f (i32 len))
  | .pipeWrite =>
      let k := k.setStore (seekAppend k.store f)
      let p := pipeOf k.store v
      pipeWriteFrom k self f p len
        (pipeWriteOp len src (PipeCall.enter (k.store.pipes p) 0))
  | _ => some (.ret (-1) .none, k)

end Transfers

section Handlers

variable (k : Kernel)

/-- No process has a page directory of its own, so every non-null range of at
least one byte is accepted. -/
def syscallValidatePtr (nonNull : Bool) (len : Nat) : Bool :=
  nonNull && len != 0

def fail (k : Kernel) : Outcome × Kernel := (.ret (-1) .none, k)

def sysExit (self : Nat) (code : Int) : Outcome × Kernel :=
  (.yield .exit, procExit k self code)

def sysSleep (self ticks : Nat) : Outcome × Kernel :=
  if ticks = 0 then (.ret 0 .none, k) else (.yield .sleep, procSleep k self ticks)

def sysFork (self entry : Nat) : Option (Outcome × Kernel) :=
  if entry = 0 then some (fail k)
  else
    (procFork k self entry).map fun result =>
      match result.1 with
      | none => fail result.2
      | some child => (.ret child .none, result.2)

def sysExec (pid entry : Nat) : Outcome × Kernel :=
  match procGet k (pid % 2 ^ 16) with
  | none => fail k
  | some p =>
      if entry = 0 then fail k
      else
        let result := procExec k p entry
        if result.1 then (.ret 0 .none, result.2) else fail result.2

/-- The open file behind a descriptor of the process. -/
def openFile (self fd : Nat) : Option Ref :=
  if fdMax ≤ fd then none else (k.procs self).fdTable fd

def sysWrite (self fd : Nat) (buf : Option (Nat → UInt8)) (len : Nat) :
    Option (Outcome × Kernel) :=
  if ¬ syscallValidatePtr buf.isSome len then some (fail k)
  else
    match openFile k self fd with
    | none => some (fail k)
    | some f => vfsWrite k self f (buf.getD fun _ => 0) len

def sysRead (self fd : Nat) (buf : Bool) (len : Nat) :
    Option (Outcome × Kernel) :=
  if ¬ syscallValidatePtr buf len then some (fail k)
  else
    match openFile k self fd with
    | none => some (fail k)
    | some f => vfsRead k self f len

def sysOpen (self : Nat) (path : Option (List UInt8)) (flags : UInt32) :
    Outcome × Kernel :=
  match path with
  | none => fail k
  | some path =>
      match vfsOpen k.store path flags with
      | (none, store) => fail (k.setStore store)
      | (some f, store) =>
          match fdInstall (k.procs self).fdTable f with
          | none =>
              let closed := vfsClose store f
              fail (wakeAll (k.setStore closed.2) closed.1)
          | some (fd, table) =>
              (.ret fd .none, withTable k self ([], store, table))

def sysClose (self fd : Nat) : Outcome × Kernel :=
  match openFile k self fd with
  | none => fail k
  | some _ =>
      (.ret 0 .none,
        withTable k self (fdClose k.store (k.procs self).fdTable fd))

def sysPipe (self : Nat) (buf : Bool) : Outcome × Kernel :=
  if ¬ syscallValidatePtr buf 8 then fail k
  else
    let created := pipeCreate k.store (k.procs self).fdTable
    let k := withTable k self (created.woken, created.store, created.table)
    match created.fds with
    | none => fail k
    | some (rfd, wfd) => (.ret 0 (.fds rfd wfd), k)

def sysDup2 (self oldfd newfd : Nat) : Outcome × Kernel :=
  match openFile k self oldfd with
  | none => fail k
  | some f =>
      if fdMax ≤ newfd then fail k
      else if oldfd = newfd then (.ret newfd .none, k)
      else
        let k := withTable k self
          (fdClose k.store (k.procs self).fdTable newfd)
        let table := Function.update (k.procs self).fdTable newfd (some f)
        (.ret newfd .none, withTable k self ([], fileRef k.store f, table))

/-- One round of the loop of `proc_wait`. -/
def procWait (self pid : Nat) (outCode : Bool) : Option (Outcome × Kernel) :=
  match zombieChild k self pid with
  | none => some (.yield (.wait pid outCode), waitBlock k self pid)
  | some child =>
      let reply := if outCode then .code (k.procs child).exitCode else .none
      let cpid := (k.procs child).pid
      (procDestroy k child).map fun k => (.ret cpid reply, k)

/-- `syscall_dispatch` for the current process `self`, up to the return of the
handler or its `sched_yield`; `none` is a panic or an endless loop. -/
def syscallDispatch (self : Nat) : Syscall → Option (Outcome × Kernel)
  | .yield => some (.ret 0 .none, k)
  | .exit code => some (sysExit k self code)
  | .getpid => some (.ret (k.procs self).pid .none, k)
  | .sleep ticks => some (sysSleep k self ticks)
  | .fork entry => sysFork k self entry
  | .exec pid entry => some (sysExec k pid entry)
  | .write fd buf len => sysWrite k self fd buf len
  | .read fd buf len => sysRead k self fd buf len
  | .open path flags => some (sysOpen k self path flags)
  | .close fd => some (sysClose k self fd)
  | .pipe buf => some (sysPipe k self buf)
  | .dup2 oldfd newfd => some (sysDup2 k self oldfd newfd)
  | .wait pid outCode => procWait k self (pid % 2 ^ 16) outCode
  | .unknown => some (fail k)

/-- The system call goes on after its `sched_yield`; `src` is what a writer's
buffer holds now. -/
def resumeCall (self : Nat) (src : Nat → UInt8) :
    Cont → Option (Outcome × Kernel)
  | .exit => some (.ret 0 .none, k)
  | .sleep => some (.ret 0 .none, k)
  | .wait pid outCode =>
      procWait (k.setPcb self { k.procs self with waiting := false })
        self pid outCode
  | .pipeRead f p len read => pipeReadFrom k self f p len read
  | .pipeWrite f p len written =>
      pipeWriteFrom k self f p len
        (pipeWriteResume len src
          (PipeCall.enter (k.store.pipes p) written))
  | .kbdRead f len => some (kbdRead k self f len)

/-- The end of a segment: return to user mode or yield, through
`sched_switch_esp` in both cases. -/
def settle (result : Outcome × Kernel) : Kernel :=
  match result.1 with
  | .ret _ _ => schedSwitchEsp result.2 .user
  | .yield cont => schedYield result.2 cont

end Handlers

/-- What can happen next. -/
inductive Event where
  | timer
  | key (scancode : UInt8)
  | syscall (call : Syscall)
  | resume (src : Nat → UInt8)

def timerHandler (k : Kernel) : Kernel :=
  schedTick { k with tickCount := u32 (k.tickCount + 1) }

/-- The keyboard interrupt: the driver, then its wake-ups. -/
def keyHandler (k : Kernel) (scancode : UInt8) : Kernel :=
  let handled := keyboardHandler k.keyboard scancode
  wakeAll { k with keyboard := handled.2 } handled.1

/-- One segment of the kernel. -/
def Kernel.step (k : Kernel) (event : Event) : Option Kernel :=
  match k.currentProc with
  | none => none
  | some self =>
      match event, k.resume with
      | .timer, none => some (schedSwitchEsp (timerHandler k) .user)
      | .key scancode, none =>
          some (schedSwitchEsp (keyHandler k scancode) .user)
      | .syscall call, none => (syscallDispatch k self call).map settle
      | .resume src, some cont => (resumeCall k self src cont).map settle
      | _, _ => none

/-- Process functions that kernel code may also call on its own, outside any
system call. -/
inductive KernelCall where
  | procCreate (priority : Nat)
  | procInitFrame (pid entry : Nat)
  | procSetReady (pid : Nat)
  | schedAdd (pid : Nat)
  | procWake (pid : Nat)

/-- A kernel call on a process goes through `proc_get`. -/
def Kernel.call (k : Kernel) : KernelCall → Option Kernel
  | .procCreate priority => some (procCreate k priority).2
  | .procInitFrame pid entry =>
      (procGet k pid).map fun pid => procInitFrame k pid entry
  | .procSetReady pid => (procGet k pid).bind fun pid => procSetReady k pid
  | .schedAdd pid => (procGet k pid).map fun pid => schedAdd k pid
  | .procWake pid => (procGet k pid).map fun pid => procWake k pid

inductive Input where
  | event (event : Event)
  | call (call : KernelCall)

/-- A segment, or a kernel call between two segments. -/
def Kernel.stepInput (k : Kernel) : Input → Option Kernel
  | .event e => k.step e
  | .call c => k.call c

/-- The state before any kernel code has run; only the heap is set up. -/
def Kernel.reset (store : Store) : Kernel where
  procs := fun pid => { Pcb.zero with pid := pid }
  pidBitmap := WordBitmap.set (fun _ => 0#32) pidKernel
  pidSearchHint := ⟨pidInit, pidInit_valid⟩
  readyQueue := []
  currentIdx := 0
  currentProc := none
  schedEnabled := false
  tickFlag := false
  tickCount := 0
  keyboard := Keyboard.initial
  store := store
  resume := none
  changes := []
  queueFull := 0

/-- A heap without objects; which requests will be refused is open. -/
def Store.empty (refuses : Nat → Bool) : Store where
  next := 1
  cells := fun _ => none
  freed := []
  requests := 0
  refuses := refuses
  files := fun _ => default
  vnodes := fun _ => default
  ends := fun _ => default
  pipes := fun _ => Pipe.fresh
  inodes := fun _ => default
  bytes := fun _ _ => 0
  mounts := []
  ramfsRoot := none
  stdinVnode := none
  stdoutVnode := none
  stderrVnode := none

/-- `kernel_main` after the heap is up: the file systems, the idle process and
the start of the scheduler.  Without an idle process the kernel panics. -/
def boot (refuses : Nat → Bool) (idleEntry : Nat) : Option Kernel :=
  let k := Kernel.reset (devfsInit (ramfsInit (Store.empty refuses)))
  match procCreate k procPrioIdle with
  | (none, _) => none
  | (some idle, k) =>
      (procSetReady (procInitFrame k idle idleEntry) idle).bind fun k =>
        schedStart (schedAdd k idle)

end Orion
