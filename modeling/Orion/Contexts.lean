/-
What is left on the kernel stacks.  Every entry into the kernel pushes a frame
on the stack of the current process, `sched_switch_esp` keeps the address of
the frame in the process table, and the stub pops the frame that it is given
back.  The machine here is the kernel with the memory and the registers it
works on; its history says which frame each process was last left with.
-/
import Orion.Frames
import Orion.Genealogy
import Orion.Processor

namespace Orion

open ByteMem WordStack

def kstackSize : Nat := 4096

/-- Why the kernel is entered.  For SYS_EXECVE, `entry` is what `elf_load`
returns and `store` is the heap as `elf_load` leaves it. -/
inductive Trap where
  | event (event : Event)
  | execve (entry : UInt32) (store : Store)

section Kernels

variable (k : Kernel)

def sysExecve (self : Nat) (entry : UInt32) (store : Store) :
    Outcome × Kernel :=
  let k := k.setStore store
  if entry = 0 then fail k
  else
    (.ret 0 .none, k.setPcb self { k.procs self with
      timeslice := (k.procs self).timesliceLen
      ticksTotal := 0
      ticksScheduled := 0 })

/-- The handler of a trap, up to its return or its `sched_yield`. -/
def Kernel.trap : Trap → Option (Outcome × Kernel)
  | .event event => k.handler event
  | .execve entry store =>
      match k.currentProc, k.resume with
      | some self, none => some (sysExecve k self entry store)
      | _, _ => none

/-- The process for which a handler calls `proc_init_frame`, and the entry
point. -/
def newFrame : Trap → Option (Nat × UInt32)
  | .event (.syscall (.fork entry)) =>
      (forked k (.syscall (.fork entry))).map fun pair =>
        (pair.2, UInt32.ofNat entry)
  | .event (.syscall (.exec pid entry)) =>
      if entry = 0 then none
      else
        (procGet k (pid % 2 ^ 16)).bind fun p =>
          if k.state p = .running then none else some (p, UInt32.ofNat entry)
  | _ => none

/-- The process that a handler destroys. -/
def destroyed : Trap → Option Nat
  | .event event => (reaped k event).map Prod.snd
  | .execve _ _ => none

end Kernels

/-- The stub that a trap comes through.  The rest of a system call does not
come through any. -/
def Trap.stub : Trap → Option (List Instr)
  | .event .timer => some (irqEntry 0)
  | .event (.key _) => some (irqEntry 1)
  | .event (.syscall _) => some syscallEntry
  | .event (.resume _) => none
  | .execve _ _ => some syscallEntry

def Trap.intNo : Trap → UInt32
  | .event .timer => 32 + 0
  | .event (.key _) => 32 + 1
  | _ => 0x80

/-- What a handler that returns `value` stores through its `regs_t`. -/
def Trap.stores (value : Int) : Trap → List (Field × UInt32)
  | .event .timer => []
  | .event (.key _) => []
  | .event _ => [(.eax, UInt32.ofInt value)]
  | .execve entry _ =>
      (if entry = 0 then [] else
        [(.eip, entry), (.eax, 0), (.ebx, 0), (.ecx, 0), (.edx, 0), (.esi, 0),
          (.edi, 0), (.ebp, 0), (.eflags, 0x202)]) ++
        [(.eax, UInt32.ofInt value)]

/-- How a process was left: switched out by a call `sched_switch_esp(esp)`
for a frame with the given registers, or with a new frame at `esp`. -/
inductive Moment where
  | out (pid : Nat) (esp intNo : UInt32) (regs : Regs)
  | init (pid : Nat) (esp entry : UInt32)
deriving DecidableEq

def Moment.pid : Moment → Nat
  | .out pid _ _ _ => pid
  | .init pid _ _ => pid

def Moment.esp : Moment → UInt32
  | .out _ esp _ _ => esp
  | .init _ esp _ => esp

/-- The frame, as `regs_t` names it. -/
def Moment.frame : Moment → RegsT
  | .out _ _ intNo regs => regs.saved intNo
  | .init _ _ entry => freshFrame entry

/-- The registers to go on with. -/
def Moment.regs : Moment → Regs
  | .out _ _ _ regs => regs
  | .init _ esp entry => freshRegs entry (esp + UInt32.ofNat frameSize)

def latest (moments : List Moment) (pid : Nat) : Option Moment :=
  moments.find? fun m => m.pid == pid

/-- A call of `sched_switch_esp` that has dispatched `pid`: the value it
returned, how the process was last left, and the frame at that address with
the registers that the stub then pops from it. -/
structure Dispatch where
  pid : Nat
  value : UInt32
  last : Option Moment
  frame : RegsT
  restored : Regs
deriving DecidableEq

structure CpuRun where
  kernel : Kernel
  mem : Mem
  espKernel : Nat → UInt32
  moments : List Moment
  dispatched : List Dispatch

/-- One passage through the kernel: the trap, the registers at its entry (for
the rest of a system call, those at the entry of that call), at the `int 0x80`
of `sched_yield` and before the stub pops its frame, and what the process has
written to the memory before the trap and the handler during it. -/
structure Passage where
  trap : Trap
  regs : Regs
  inner : Regs
  scratch : Regs
  before : List (Nat × UInt8)
  during : List (Nat × UInt8)

section Machine

variable (place : Ref → UInt32) (c : CpuRun)

/-- Where the kernel stack of a process starts, if `place` gives the address
of every heap block. -/
def Kernel.stackBase (k : Kernel) (pid : Nat) : Nat :=
  match (k.procs pid).kstackBase with
  | none => 0
  | some base => (place base).toNat

def Kernel.kstackTop (k : Kernel) (pid : Nat) : UInt32 :=
  match (k.procs pid).kstackBase with
  | none => 0
  | some base => place base + UInt32.ofNat kstackSize

def CpuRun.procInitFrame (pid : Nat) (entry : UInt32) : CpuRun :=
  let top := c.kernel.kstackTop place pid
  if top = 0 then c
  else
    let s := initFrame c.mem top entry
    { c with
      mem := s.mem
      espKernel := Function.update c.espKernel pid s.sp
      moments := .init pid s.sp entry :: c.moments }

/-- The memory that a handler finds. -/
def Passage.entered (e : Passage) (mem : Mem) : Mem :=
  let mem := putBytes mem e.before
  match e.trap.stub with
  | none => mem
  | some stub => (pushFrame mem e.regs stub).mem

/-- The part of `proc_destroy` that concerns the saved stack pointer. -/
def CpuRun.procDestroy (child : Nat) : CpuRun :=
  { c with espKernel := Function.update c.espKernel child 0 }

/-- The handler of a trap that leaves the kernel as `k'`. -/
def CpuRun.attend (e : Passage) (k' : Kernel) : CpuRun :=
  let c' := { c with kernel := k', mem := e.entered c.mem }
  let c' := (newFrame c.kernel e.trap).elim c' fun new =>
    c'.procInitFrame place new.1 new.2
  let c' := (destroyed c.kernel e.trap).elim c' c'.procDestroy
  { c' with mem := putBytes c'.mem e.during }

/-- Save the stack pointer of the current process, at a frame with the
registers `regs`. -/
def CpuRun.saveCurrent (cur : Nat) (esp intNo : UInt32) (regs : Regs) :
    CpuRun :=
  { c with
    espKernel := Function.update c.espKernel cur esp
    moments := .out cur esp intNo regs :: c.moments }

/-- The saved stack pointer of `next` goes to the stub, which loads it and pops
the frame. -/
def CpuRun.dispatch (next : Nat) (scratch : Regs) : CpuRun :=
  let value := c.espKernel next
  let popped := (Cpu.mk { scratch with esp := value } c.mem).run stubReturn
  { c with dispatched :=
      ⟨next, value, latest c.moments next, regsAt c.mem value, popped.regs⟩ ::
        c.dispatched }

/-- `sched_switch_esp(esp)` for a frame with the registers `regs`, and the end
of the stub that called it. -/
def CpuRun.schedSwitchEsp (frame : Frame) (esp intNo : UInt32)
    (regs scratch : Regs) : CpuRun :=
  let k := Orion.schedSwitchEsp c.kernel frame
  match c.kernel.currentProc, k.currentProc with
  | some cur, some next =>
      -- it returns 0 unless it has made another process the current one
      if next = cur then { c with kernel := k }
      else
        { (c.saveCurrent cur esp intNo regs).dispatch next scratch with
          kernel := k }
  | _, _ => { c with kernel := k }

/-- The end of a handler: it returns to its stub, or the `sched_yield` in it
enters the kernel once more. -/
def CpuRun.settle (e : Passage) : Outcome → CpuRun
  | .ret value _ =>
      let esp := e.regs.esp - UInt32.ofNat frameSize
      let stores := e.trap.stores value
      { c with mem := storeAll c.mem esp stores }.schedSwitchEsp .user esp
        e.trap.intNo (e.regs.storeAll stores) e.scratch
  | .yield cont =>
      let s := pushFrame c.mem e.inner syscallEntry
      -- `sys_yield` returns 0
      let stores : List (Field × UInt32) := [(.eax, 0)]
      { c with
        kernel := schedForceSwitch c.kernel
        mem := storeAll s.mem s.sp stores }.schedSwitchEsp (.kernel cont) s.sp
        0x80 (e.inner.storeAll stores) e.scratch

/-- There is room for a frame below `esp` on the stack of `pid`. -/
def Kernel.hasRoom (k : Kernel) (pid : Nat) (esp : UInt32) : Bool :=
  decide (k.stackBase place pid + frameSize ≤ esp.toNat ∧
    esp.toNat ≤ k.stackBase place pid + kstackSize)

/-- The writes spare the stacks of all processes but `self`. -/
def Kernel.spared (k : Kernel) (self : Nat) (writes : List (Nat × UInt8)) :
    Bool :=
  writes.all fun write => (List.range maxProcs).all fun pid =>
    pid == self || k.state pid == .unused ||
      decide (write.1 < k.stackBase place pid ∨
        k.stackBase place pid + kstackSize ≤ write.1)

/-- `kmalloc` has given each new process a stack apart from the others. -/
def roomFor (k k' : Kernel) : Bool :=
  (List.range maxProcs).all fun pid =>
    k.state pid != .unused || k'.state pid == .unused ||
      (decide (0 < k'.stackBase place pid ∧
          k'.stackBase place pid + kstackSize < 2 ^ 32) &&
        (List.range maxProcs).all fun other =>
          other == pid || k'.state other == .unused ||
            decide (k'.stackBase place other + kstackSize ≤
                k'.stackBase place pid ∨
              k'.stackBase place pid + kstackSize ≤
                k'.stackBase place other))

/-- The processes keep to their own stacks, and the handler also keeps off the
frame below it. -/
def Passage.fits (e : Passage) (k : Kernel) (self : Nat) (outcome : Outcome)
    (k' : Kernel) : Bool :=
  let esp := (e.regs.esp - UInt32.ofNat frameSize).toNat
  k.hasRoom place self e.regs.esp &&
  (match outcome with
    | .ret _ _ => true
    | .yield _ => k.hasRoom place self e.inner.esp) &&
  k.spared place self e.before && k'.spared place self e.during &&
  (e.during.all fun write =>
    decide (write.1 < esp ∨ esp + frameSize ≤ write.1)) &&
  roomFor place k k'

def CpuRun.step (e : Passage) : Option CpuRun :=
  match c.kernel.currentProc, c.kernel.trap e.trap with
  | some self, some (outcome, k') =>
      if e.fits place c.kernel self outcome k' then
        some ((c.attend place e k').settle e outcome)
      else none
  | _, _ => none

end Machine

/-- The machine when `sched_start` starts the idle process.  Interrupts are on
by then, so that a tick may be pending. -/
def CpuRun.boot (place : Ref → UInt32) (refuses : Nat → Bool)
    (idleEntry : UInt32) (mem : Mem) (pending : Bool) : Option CpuRun :=
  (Orion.boot refuses idleEntry.toNat).bind fun k =>
    k.currentProc.bind fun idle =>
      if 0 < k.stackBase place idle ∧
          k.stackBase place idle + kstackSize < 2 ^ 32 then
        some ((CpuRun.mk { k with tickFlag := pending } mem (fun _ => 0) []
          []).procInitFrame place idle idleEntry)
      else none

end Orion
