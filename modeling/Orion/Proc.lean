/-
The process table, the scheduler and the process operations.  A kernel
segment runs from an entry into the kernel to the next return from
`sched_switch_esp`; a process that yields inside the kernel leaves behind
where it will go on.
-/
import Orion.Fd
import Orion.Keyboard
import Orion.SwapRemove
import Orion.WordBitmap

namespace Orion

open MachineInt

def maxProcs : Nat := 256
def pidKernel : Nat := 0
def pidInit : Nat := 1
def pidInvalid : Nat := 0xFFFF

def procPrioNormal : Nat := 16
def procPrioIdle : Nat := 31
def procTimesliceDefault : Nat := 10

inductive ProcState where
  | unused
  | embryo
  | ready
  | running
  | blocked
  | zombie
  deriving DecidableEq, Repr

/-- Where a process goes on after the `sched_yield` it is in, with the local
variables it needs. -/
inductive Cont where
  | exit
  | sleep
  | wait (pid : Nat) (outCode : Bool)
  | pipeRead (file pipe : Ref) (len read : Nat)
  | pipeWrite (file pipe : Ref) (len written : Nat)
  | kbdRead (file : Ref) (len : Nat)
  deriving DecidableEq, Repr

/-- What the saved stack pointer of a process points to. -/
inductive Frame where
  | null
  /-- built by `proc_init_frame` -/
  | fresh (entry : Nat)
  /-- an interrupted user computation -/
  | user
  /-- a `sched_yield` inside the kernel -/
  | kernel (cont : Cont)
  deriving DecidableEq, Repr

def Frame.cont : Frame → Option Cont
  | .kernel cont => some cont
  | _ => none

structure Pcb where
  pid : Nat
  ppid : Nat
  state : ProcState
  exitCode : Int
  espKernel : Frame
  kstackBase : Option Ref
  priority : Nat
  basePriority : Nat
  timesliceLen : Nat
  timeslice : Nat
  ticksTotal : Nat
  ticksScheduled : Nat
  tickLastRun : Nat
  tickCreated : Nat
  wakeupTick : Nat
  waitForPid : Nat
  waiting : Bool
  fdTable : FdTable

/-- A zeroed table entry. -/
def Pcb.zero : Pcb where
  pid := 0
  ppid := 0
  state := .unused
  exitCode := 0
  espKernel := .null
  kstackBase := none
  priority := 0
  basePriority := 0
  timesliceLen := 0
  timeslice := 0
  ticksTotal := 0
  ticksScheduled := 0
  tickLastRun := 0
  tickCreated := 0
  wakeupTick := 0
  waitForPid := 0
  waiting := false
  fdTable := FdTable.empty

/-- A change of a process's state field. -/
structure StateChange where
  pid : Nat
  before : ProcState
  after : ProcState
  deriving DecidableEq, Repr

structure Kernel where
  procs : Nat → Pcb
  pidBitmap : WordBitmap.Words
  /-- the search for a free pid never starts at the kernel's own pid -/
  pidSearchHint : { hint : Nat // pidInit ≤ hint ∧ hint < maxProcs }
  readyQueue : List Nat
  currentIdx : Nat
  currentProc : Option Nat
  schedEnabled : Bool
  tickFlag : Bool
  tickCount : Nat
  keyboard : Keyboard
  store : Store
  /-- where the current process goes on inside the kernel, if it is there -/
  resume : Option Cont
  /-- every change of a state field, latest first -/
  changes : List StateChange
  /-- how often `sched_add` found the queue full -/
  queueFull : Nat

namespace Kernel

variable (k : Kernel)

/-- Write a table entry; a change of its state is recorded. -/
def setPcb (pid : Nat) (pcb : Pcb) : Kernel :=
  { k with
    procs := Function.update k.procs pid pcb
    changes := if (k.procs pid).state = pcb.state then k.changes
      else ⟨pid, (k.procs pid).state, pcb.state⟩ :: k.changes }

def setStore (store : Store) : Kernel := { k with store := store }

/-- The state of a process. -/
def state (pid : Nat) : ProcState := (k.procs pid).state

end Kernel

section Scheduler

variable (k : Kernel)

/-- `proc_get`: the slots in use. -/
def procGet (pid : Nat) : Option Nat :=
  if maxProcs ≤ pid then none
  else if k.state pid = .unused then none
  else some pid

def schedAdd (pid : Nat) : Kernel :=
  if k.state pid ≠ .ready then k
  else if maxProcs ≤ k.readyQueue.length then
    { k with queueFull := k.queueFull + 1 }
  else { k with readyQueue := k.readyQueue ++ [pid] }

def schedRemove (pid : Nat) : Kernel :=
  { k with readyQueue := SwapRemove.swapRemove pid k.readyQueue }

def procWake (pid : Nat) : Kernel :=
  if k.state pid ≠ .blocked then k
  else
    schedAdd (k.setPcb pid
      { k.procs pid with wakeupTick := 0, state := .ready }) pid

/-- Wake the processes of a list that still exist. -/
def wakeAll (k : Kernel) : List Nat → Kernel
  | [] => k
  | pid :: rest =>
      match procGet k pid with
      | none => wakeAll k rest
      | some pid => wakeAll (procWake k pid) rest

/-- The wake-up scan of `sched_tick` over a list of pids. -/
def tickScan (k : Kernel) : List Nat → Kernel
  | [] => k
  | pid :: rest =>
      let pcb := k.procs pid
      if pcb.state = .blocked ∧ pcb.wakeupTick ≠ 0 ∧
          pcb.wakeupTick ≤ k.tickCount
      then tickScan (procWake k pid) rest
      else tickScan k rest

def schedTick : Kernel :=
  tickScan { k with tickFlag := true } (List.range maxProcs)

/-- Scan the queue for the READY process with the lowest priority number; the
first one wins a tie. -/
def pickReady (k : Kernel) (skip : Option Nat) :
    List (Nat × Nat) → Option (Nat × Nat) → Option (Nat × Nat)
  | [], best => best
  | (pid, idx) :: rest, best =>
      let bestPrio := match best with
        | none => 255
        | some (leader, _) => (k.procs leader).priority
      if some pid ≠ skip ∧ k.state pid = .ready ∧
          (k.procs pid).priority < bestPrio
      then pickReady k skip rest (some (pid, idx))
      else pickReady k skip rest best

/-- Save the stack pointer and the accounting of the current process. -/
def saveCurrent (cur : Nat) (esp : Frame) : Kernel :=
  let pcb := k.procs cur
  k.setPcb cur { pcb with
    espKernel := esp
    ticksTotal := u32 (pcb.ticksTotal + pcb.timesliceLen)
    tickLastRun := k.tickCount
    state := if pcb.state = .running then .ready else pcb.state }

/-- Make `next` the current process.  A null frame is the value for "no
switch": the processor then goes on with the old stack. -/
def activate (next idx : Nat) (esp : Frame) : Kernel :=
  let pcb := k.procs next
  let k := k.setPcb next { pcb with
    state := .running
    timeslice := pcb.timesliceLen
    ticksScheduled := u32 (pcb.ticksScheduled + 1) }
  { k with
    currentIdx := idx
    currentProc := some next
    resume := if pcb.espKernel = .null then esp.cont
      else pcb.espKernel.cont }

/-- `sched_switch_esp` once the timeslice has been counted down: go on with
the current process, or find another one. -/
def schedExpire (cur : Nat) (esp : Frame) : Kernel :=
  if 0 < (k.procs cur).timeslice then k
  else
    match pickReady k (some cur) k.readyQueue.zipIdx none with
    | none => k.setPcb cur
        { k.procs cur with timeslice := (k.procs cur).timesliceLen }
    | some (next, idx) => activate (saveCurrent k cur esp) next idx esp

/-- Count down the timeslice of a process. -/
def countDown (cur : Nat) : Kernel :=
  k.setPcb cur { k.procs cur with timeslice := (k.procs cur).timeslice - 1 }

/-- `sched_switch_esp`, called with the frame of the current process.  If it
returns 0 the current process goes on from that frame. -/
def schedSwitchEsp (esp : Frame) : Kernel :=
  if ¬ k.schedEnabled ∨ ¬ k.tickFlag then { k with resume := esp.cont }
  else
    let k := { k with resume := esp.cont, tickFlag := false }
    match k.currentProc with
    | none => k
    | some cur => schedExpire (countDown k cur) cur esp

/-- Launch the highest-priority READY process. -/
def schedStart : Option Kernel :=
  match pickReady k none k.readyQueue.zipIdx none with
  | none => none
  | some (first, idx) =>
      let pcb := k.procs first
      let k := k.setPcb first { pcb with
        state := .running
        ticksScheduled := u32 (pcb.ticksScheduled + 1) }
      some { k with
        currentProc := some first
        currentIdx := idx
        schedEnabled := true
        resume := pcb.espKernel.cont }

def schedForceSwitch : Kernel :=
  let k := { k with tickFlag := true }
  match k.currentProc with
  | none => k
  | some cur => k.setPcb cur { k.procs cur with timeslice := 0 }

/-- `sched_yield` inside the kernel: the nested system call ends in
`sched_switch_esp`. -/
def schedYield (cont : Cont) : Kernel :=
  schedSwitchEsp (schedForceSwitch k) (.kernel cont)

end Scheduler

section Processes

variable (k : Kernel)

/-- The pids in the order in which `pid_alloc` tries them. -/
def pidCandidates (hint : Nat) : List Nat :=
  List.range' hint (maxProcs - hint) ++ List.range' pidInit (hint - pidInit)

theorem pidInit_valid : pidInit ≤ pidInit ∧ pidInit < maxProcs := by decide

/-- The search hint after `pid` has been handed out. -/
def hintAfter (pid : Nat) : { hint : Nat // pidInit ≤ hint ∧ hint < maxProcs } :=
  if hlt : pid + 1 < maxProcs then ⟨pid + 1, Nat.le_add_left 1 pid, hlt⟩
  else ⟨pidInit, pidInit_valid⟩

def pidAlloc : Option Nat × Kernel :=
  match (pidCandidates k.pidSearchHint.val).find? fun pid =>
      !WordBitmap.test k.pidBitmap pid with
  | none => (none, k)
  | some pid =>
      (some pid, { k with
        pidBitmap := WordBitmap.set k.pidBitmap pid
        pidSearchHint := hintAfter pid })

def pidFree (pid : Nat) : Kernel :=
  if hpid : pid = pidKernel ∨ pid = pidInvalid then k
  else if ¬ WordBitmap.test k.pidBitmap pid then k
  else
    { k with
      pidBitmap := WordBitmap.clear k.pidBitmap pid
      pidSearchHint :=
        if hlt : pid < k.pidSearchHint.val then
          ⟨pid, Nat.one_le_iff_ne_zero.mpr fun h => hpid (.inl h),
            hlt.trans k.pidSearchHint.property.2⟩
        else k.pidSearchHint }

/-- The time slice of a priority. -/
def timesliceOf (priority : Nat) : Nat :=
  let tslice :=
    if priority < procPrioNormal then
      procTimesliceDefault + (procPrioNormal - priority) / 2
    else if procPrioNormal < priority then
      procTimesliceDefault - (priority - procPrioNormal) / 5
    else procTimesliceDefault
  if tslice < 2 then 2 else tslice

/-- The entry that `proc_create` fills in. -/
def embryoPcb (pid priority tick : Nat) (kstack : Ref) (table : FdTable) :
    Pcb :=
  let priority := if procPrioIdle < priority then procPrioIdle else priority
  { pid := pid
    ppid := pidKernel
    state := .embryo
    exitCode := 0
    espKernel := .null
    kstackBase := some kstack
    priority := priority
    basePriority := priority
    timesliceLen := timesliceOf priority
    timeslice := timesliceOf priority
    ticksTotal := 0
    ticksScheduled := 0
    tickLastRun := 0
    tickCreated := tick
    wakeupTick := 0
    waitForPid := pidInvalid
    waiting := false
    fdTable := table }

def procCreate (priority : Nat) : Option Nat × Kernel :=
  match pidAlloc k with
  | (none, k) => (none, k)
  | (some pid, k) =>
      if k.state pid ≠ .unused then (none, pidFree k pid)
      else
        match k.store.kmalloc .kstack with
        | (none, store) => (none, pidFree (k.setStore store) pid)
        | (some kstack, store) =>
            let init := fdTableInit store
            (some pid, (k.setStore init.1).setPcb pid
              (embryoPcb pid priority k.tickCount kstack init.2))

/-- A process without a kernel stack is left alone. -/
def procInitFrame (pid entry : Nat) : Kernel :=
  if (k.procs pid).kstackBase = none then k
  else k.setPcb pid { k.procs pid with espKernel := .fresh entry }

/-- EMBRYO to READY; any other state is a panic. -/
def procSetReady (pid : Nat) : Option Kernel :=
  if k.state pid ≠ .embryo then none
  else some (k.setPcb pid { k.procs pid with state := .ready })

theorem procSetReady_eq_some {k k' : Kernel} {pid : Nat}
    (hready : procSetReady k pid = some k') :
    k.state pid = .embryo ∧
      k' = k.setPcb pid { k.procs pid with state := .ready } := by
  unfold procSetReady at hready
  split_ifs at hready with hembryo
  exact ⟨not_not.mp hembryo, (Option.some.inj hready).symm⟩

/-- Replace a descriptor table together with the store, then wake. -/
def withTable (pid : Nat) (result : List Nat × Store × FdTable) : Kernel :=
  wakeAll ((k.setStore result.2.1).setPcb pid
    { k.procs pid with fdTable := result.2.2 }) result.1

/-- `fd_table_close_all` on the table of a process. -/
def closeFiles (pid : Nat) : Kernel :=
  withTable k pid (fdTableCloseAll k.store (k.procs pid).fdTable)

/-- `fd_table_clone` from one process to another. -/
def shareFiles (parent child : Nat) : Kernel :=
  withTable k child ([], fdTableClone k.store (k.procs parent).fdTable
    (k.procs child).fdTable)

/-- Release a ZOMBIE; any other state is a panic.  Of the entry only the pid is
kept. -/
def procDestroy (pid : Nat) : Option Kernel :=
  if k.state pid ≠ .zombie then none
  else
    let k := closeFiles
      (k.setStore (k.store.kfreeOption (k.procs pid).kstackBase)) pid
    let savedPid := (k.procs pid).pid
    some ((pidFree k savedPid).setPcb pid { Pcb.zero with pid := savedPid })

/-- The parent's part of `proc_fork`: the child gets the parent's pid and, in
place of its fresh descriptors, the parent's. -/
def adoptChild (self child : Nat) : Kernel :=
  let k := k.setPcb child { k.procs child with ppid := (k.procs self).pid }
  shareFiles (closeFiles k child) self child

/-- `proc_fork` by the process `self`; the outer `none` is a panic. -/
def procFork (self entry : Nat) : Option (Option Nat × Kernel) :=
  match procCreate k (k.procs self).priority with
  | (none, k) => some (none, k)
  | (some child, k) =>
      let k := procInitFrame (adoptChild k self child) child entry
      (procSetReady k child).map fun k =>
        (some (k.procs child).pid, schedAdd k child)

/-- Any process that is not RUNNING is restarted at `entry`. -/
def procExec (pid entry : Nat) : Bool × Kernel :=
  if k.state pid = .running then (false, k)
  else
    let k := schedRemove k pid
    let k := procInitFrame k pid entry
    let pcb := k.procs pid
    let k := k.setPcb pid { pcb with
      ticksTotal := 0
      ticksScheduled := 0
      timeslice := pcb.timesliceLen
      wakeupTick := 0
      waiting := false
      state := .ready }
    (true, schedAdd k pid)

/-- Wake the parent if it waits for this child. -/
def wakeParent (self : Nat) : Kernel :=
  let ppid := (k.procs self).ppid
  if ppid = pidKernel ∨ ppid = pidInvalid then k
  else
    match procGet k ppid with
    | none => k
    | some parent =>
        let pcb := k.procs parent
        if pcb.waiting ∧ (pcb.waitForPid = pidInvalid ∨
            pcb.waitForPid = (k.procs self).pid)
        then procWake k parent else k

/-- `proc_exit` up to its `sched_yield`. -/
def procExit (self : Nat) (code : Int) : Kernel :=
  let k := k.setPcb self { k.procs self with exitCode := code, state := .zombie }
  schedRemove (wakeParent k self) self

/-- Mark the process BLOCKED and take it off the queue. -/
def blockSelf (self : Nat) : Kernel :=
  schedRemove (k.setPcb self { k.procs self with state := .blocked }) self

/-- `proc_sleep` up to its `sched_yield`; no ticks, no sleep. -/
def procSleep (self ticks : Nat) : Kernel :=
  blockSelf (k.setPcb self
    { k.procs self with wakeupTick := u32 (k.tickCount + ticks) }) self

/-- The first zombie child that `proc_wait` finds. -/
def zombieChild (self pid : Nat) : Option Nat :=
  (List.range maxProcs).find? fun child =>
    (procGet k child).isSome && (k.procs child).ppid == (k.procs self).pid &&
      (pid == pidInvalid || (k.procs child).pid == pid) &&
      k.state child == .zombie

/-- `proc_wait` without a zombie child, up to its `sched_yield`. -/
def waitBlock (self pid : Nat) : Kernel :=
  blockSelf (k.setPcb self { k.procs self with
    waitForPid := pid
    waiting := true
    wakeupTick := 0 }) self

end Processes

end Orion
