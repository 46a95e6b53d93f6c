/-
What the handlers compute.  A segment of a system call, up to its return or
its `sched_yield`, is one of a few compositions of kernel functions; what a
segment keeps is shown case by case.
-/
import Orion.Syscall

namespace Orion

/-- A segment up to its `sched_switch_esp`.  Interrupt handlers return
nothing. -/
def Kernel.handler (k : Kernel) (event : Event) : Option (Outcome × Kernel) :=
  match k.currentProc with
  | none => none
  | some self =>
      match event, k.resume with
      | .timer, none => some (.ret 0 .none, timerHandler k)
      | .key scancode, none => some (.ret 0 .none, keyHandler k scancode)
      | .syscall call, none => syscallDispatch k self call
      | .resume src, some cont => resumeCall k self src cont
      | _, _ => none

theorem step_eq_handler (k : Kernel) (event : Event) :
    k.step event = (k.handler event).map settle := by
  unfold Kernel.step Kernel.handler
  cases k.currentProc with
  | none => rfl
  | some self =>
      cases hresume : k.resume with
      | none => cases event <;> rfl
      | some cont => cases event <;> rfl

/-- Why a segment runs: a system call, or the rest of one. -/
inductive Cause where
  | call (call : Syscall)
  | resume (cont : Cont)

/-- The request of a segment of `proc_wait`. -/
def Cause.waitsFor : Cause → Option (Nat × Bool)
  | .call (.wait pid outCode) => some (pid % 2 ^ 16, outCode)
  | .resume (.wait pid outCode) => some (pid, outCode)
  | _ => none

/-- The kernel as the rest of a system call finds it: `proc_wait` begins by
clearing its flag. -/
def resumed (k : Kernel) (self : Nat) : Cont → Kernel
  | .wait _ _ => k.setPcb self { k.procs self with waiting := false }
  | _ => k

/-- The pipe `p` after a segment of a transfer, its peers woken. -/
def pipeMoved (k : Kernel) (p : Ref) (call : PipeCall) : Kernel :=
  wakeAll (k.setStore (k.store.setPipe p call.pipe)) call.woken

def pipeCont (isWrite : Bool) (f p : Ref) (len moved : Nat) : Cont :=
  bif isWrite then .pipeWrite f p len moved else .pipeRead f p len moved

def pipeDone (isWrite : Bool) (k : Kernel) (f : Ref) (n : Int) : Kernel :=
  bif isWrite then writeDone k f n else readDone k f n

/-- The segments of pipe transfers: the kernel they start in, the file, the
pipe, and how far they come. -/
inductive PipeMoves (k : Kernel) : Cause → Kernel → Ref → Ref → Bool → Nat →
    PipeExit × PipeCall → Prop where
  | read {fd : Nat} {buf : Bool} (f : Ref) (len : Nat) :
      PipeMoves k (.call (.read fd buf len)) k f
        (pipeOf k.store (k.store.files f).vnode) false len
        (pipeReadOp len (PipeCall.enter
          (k.store.pipes (pipeOf k.store (k.store.files f).vnode)) 0))
  | readOn (f p : Ref) (len moved : Nat) :
      PipeMoves k (.resume (.pipeRead f p len moved)) k f p false len
        (pipeReadOp len (PipeCall.enter (k.store.pipes p) moved))
  | write {fd : Nat} {buf : Option (Nat → UInt8)} (f p : Ref)
      (src : Nat → UInt8) (len : Nat)
      (hpipe : p = pipeOf (seekAppend k.store f) (k.store.files f).vnode) :
      PipeMoves k (.call (.write fd buf len))
        (k.setStore (seekAppend k.store f)) f p true len
        (pipeWriteOp len src
          (PipeCall.enter ((seekAppend k.store f).pipes p) 0))
  | writeOn (f p : Ref) (src : Nat → UInt8) (len moved : Nat) :
      PipeMoves k (.resume (.pipeWrite f p len moved)) k f p true len
        (pipeWriteResume len src (PipeCall.enter (k.store.pipes p) moved))

/-- What a segment of `self` computes, by the branches of the handlers. -/
inductive Served (self : Nat) (k : Kernel) :
    Cause → Outcome → Kernel → Prop where
  | returns (cause : Cause) (value : Int) (reply : Reply) :
      Served self k cause (.ret value reply) k
  | reads (cause : Cause) (f : Ref) (n : Int) (reply : Reply) :
      Served self k cause (.ret n reply) (readDone k f n)
  | takes (cause : Cause) (f : Ref) (len : Nat) (n : Int) (reply : Reply)
      (hchar : k.keyboard.hasChar = true) :
      Served self k cause (.ret n reply)
        (readDone { k with keyboard := (k.keyboard.take len).2 } f n)
  | awaitsKey (cause : Cause) (f : Ref) (len : Nat)
      (hnone : k.keyboard.hasChar = false) :
      Served self k cause (.yield (.kbdRead f len))
        { blockSelf k self with keyboard := { k.keyboard with
          waiterPid := ((blockSelf k self).procs self).pid } }
  | stores (cause : Cause) {f : Ref} {src : Nat → UInt8} {len : Nat}
      {written : Int × Store}
      (hwrite : ramfsWrite (seekAppend k.store f) (k.store.files f).vnode src
        len ((seekAppend k.store f).files f).offset = some written) :
      Served self k cause (.ret written.1 .none)
        (writeDone (k.setStore written.2) f written.1)
  | prints (cause : Cause) (f : Ref) (n : Int) :
      Served self k cause (.ret n .none)
        (writeDone (k.setStore (seekAppend k.store f)) f n)
  | moves {cause : Cause} {k₀ : Kernel} {f p : Ref} {isWrite : Bool}
      {len : Nat} {segment : PipeExit × PipeCall} {n : Int} {reply : Reply}
      (hmoves : PipeMoves k cause k₀ f p isWrite len segment)
      (hexit : segment.1 = .done n) :
      Served self k cause (.ret n reply)
        (pipeDone isWrite (pipeMoved k₀ p segment.2) f n)
  | awaitsPipe {cause : Cause} {k₀ : Kernel} {f p : Ref} {isWrite : Bool}
      {len : Nat} {segment : PipeExit × PipeCall}
      (hmoves : PipeMoves k cause k₀ f p isWrite len segment)
      (hexit : segment.1 = .block) :
      Served self k cause (.yield (pipeCont isWrite f p len segment.2.moved))
        (blockSelf ((pipeMoved k₀ p segment.2).setStore
          ((pipeMoved k₀ p segment.2).store.setPipe p
            (pipeBlock segment.2.pipe isWrite
              ((pipeMoved k₀ p segment.2).procs self).pid))) self)
  | sleeps (ticks : Nat) :
      Served self k (.call (.sleep ticks)) (.yield .sleep)
        (procSleep k self ticks)
  | exits (code : Int) :
      Served self k (.call (.exit code)) (.yield .exit) (procExit k self code)
  | forks {entry : Nat} {result : Option Nat × Kernel} (value : Int)
      (hfork : procFork k self entry = some result) :
      Served self k (.call (.fork entry)) (.ret value .none) result.2
  | execs {pid entry p : Nat} (value : Int)
      (hget : procGet k (pid % 2 ^ 16) = some p) (hentry : entry ≠ 0) :
      Served self k (.call (.exec pid entry)) (.ret value .none)
        (procExec k p entry).2
  | opensNot {path : List UInt8} {flags : UInt32} {store : Store}
      (hopen : vfsOpen k.store path flags = (none, store)) :
      Served self k (.call (.open (some path) flags)) (.ret (-1) .none)
        (k.setStore store)
  | opensFull {path : List UInt8} {flags : UInt32} {f : Ref} {store : Store}
      (hopen : vfsOpen k.store path flags = (some f, store))
      (hfull : fdInstall (k.procs self).fdTable f = none) :
      Served self k (.call (.open (some path) flags)) (.ret (-1) .none)
        (wakeAll (k.setStore (vfsClose store f).2) (vfsClose store f).1)
  | opens {path : List UInt8} {flags : UInt32} {f : Ref} {store : Store}
      {fd : Nat} {table : FdTable}
      (hopen : vfsOpen k.store path flags = (some f, store))
      (hinstall : fdInstall (k.procs self).fdTable f = some (fd, table)) :
      Served self k (.call (.open (some path) flags)) (.ret fd .none)
        (withTable k self ([], store, table))
  | closes {fd : Nat} {f : Ref} (hopen : openFile k self fd = some f) :
      Served self k (.call (.close fd)) (.ret 0 .none)
        (withTable k self (fdClose k.store (k.procs self).fdTable fd))
  | pipes {buf : Bool} {value : Int} {reply : Reply} {k' : Kernel}
      (hvalid : syscallValidatePtr buf 8 = true)
      (hpipe : sysPipe k self buf = (.ret value reply, k'))
      (htable : k' = withTable k self
        ((pipeCreate k.store (k.procs self).fdTable).woken,
          (pipeCreate k.store (k.procs self).fdTable).store,
          (pipeCreate k.store (k.procs self).fdTable).table)) :
      Served self k (.call (.pipe buf)) (.ret value reply) k'
  | dups {oldfd newfd : Nat} {f : Ref} {k₁ : Kernel}
      (hopen : openFile k self oldfd = some f) (hrange : newfd < fdMax)
      (hne : oldfd ≠ newfd)
      (hclose : withTable k self
        (fdClose k.store (k.procs self).fdTable newfd) = k₁) :
      Served self k (.call (.dup2 oldfd newfd)) (.ret newfd .none)
        (withTable k₁ self ([], fileRef k₁.store f,
          Function.update (k₁.procs self).fdTable newfd (some f)))
  | reaps {cause : Cause} {pid child : Nat} {outCode : Bool} {k' : Kernel}
      (reply : Reply) (hcause : cause.waitsFor = some (pid, outCode))
      (hchild : zombieChild k self pid = some child)
      (hdestroy : procDestroy k child = some k') :
      Served self k cause (.ret (k.procs child).pid reply) k'
  | waits {cause : Cause} {pid : Nat} {outCode : Bool}
      (hcause : cause.waitsFor = some (pid, outCode))
      (hnone : zombieChild k self pid = none) :
      Served self k cause (.yield (.wait pid outCode)) (waitBlock k self pid)

section Cases

variable {k k' : Kernel} {self : Nat} {cause : Cause} {outcome : Outcome}

theorem fail_served (cause : Cause) {result : Outcome × Kernel}
    (hfail : some (fail k) = some result) :
    Served self k cause result.1 result.2 := by
  rw [← Option.some.inj hfail]
  exact .returns cause _ _

theorem kbdRead_served (cause : Cause) (f : Ref) (len : Nat) :
    Served self k cause (kbdRead k self f len).1 (kbdRead k self f len).2 := by
  unfold kbdRead
  split_ifs with hchar
  · exact .takes cause f len _ _ hchar
  · exact .awaitsKey cause f len (Bool.eq_false_of_not_eq_true hchar)

theorem pipeSegment_served {k₀ : Kernel} {f p : Ref} {isWrite : Bool}
    {len : Nat} {segment : PipeExit × PipeCall} {result : Outcome × Kernel}
    (hmoves : PipeMoves k cause k₀ f p isWrite len segment)
    (hsegment : pipeSegment k₀ self p isWrite segment
      (pipeCont isWrite f p len) (fun k n => pipeDone isWrite k f n) =
        some result) :
    Served self k cause result.1 result.2 := by
  unfold pipeSegment at hsegment
  dsimp only at hsegment
  split at hsegment
  · cases hsegment
  · rename_i hexit
    rw [← Option.some.inj hsegment]
    exact .moves hmoves hexit
  · rename_i hexit
    rw [← Option.some.inj hsegment]
    exact .awaitsPipe hmoves hexit

theorem vfsRead_served {fd : Nat} {buf : Bool} {f : Ref} {len : Nat}
    {result : Outcome × Kernel} (hread : vfsRead k self f len = some result) :
    Served self k (.call (.read fd buf len)) result.1 result.2 := by
  unfold vfsRead at hread
  dsimp only at hread
  split at hread
  · split at hread
    · exact fail_served _ hread
    · rw [← Option.some.inj hread]
      exact .reads _ f _ _
  · rw [← Option.some.inj hread]
    exact kbdRead_served _ f len
  · exact pipeSegment_served (.read f len) hread
  · exact fail_served _ hread

theorem vfsWrite_served {fd : Nat} {buf : Option (Nat → UInt8)} {f : Ref}
    {src : Nat → UInt8} {len : Nat} {result : Outcome × Kernel}
    (hwrite : vfsWrite k self f src len = some result) :
    Served self k (.call (.write fd buf len)) result.1 result.2 := by
  unfold vfsWrite at hwrite
  dsimp only at hwrite
  split at hwrite
  · obtain ⟨written, hramfs, rfl⟩ := Option.map_eq_some_iff.mp hwrite
    exact .stores _ hramfs
  · rw [← Option.some.inj hwrite]
    exact .prints _ f _
  · rw [← Option.some.inj hwrite]
    exact .prints _ f _
  · exact pipeSegment_served (.write f _ src len rfl) hwrite
  · exact fail_served _ hwrite

theorem procWait_served {pid : Nat} {outCode : Bool}
    {result : Outcome × Kernel} (hcause : cause.waitsFor = some (pid, outCode))
    (hwait : procWait k self pid outCode = some result) :
    Served self k cause result.1 result.2 := by
  unfold procWait at hwait
  split at hwait
  · rename_i hnone
    rw [← Option.some.inj hwait]
    exact .waits hcause hnone
  · rename_i child hchild
    obtain ⟨k', hdestroy, rfl⟩ := Option.map_eq_some_iff.mp hwait
    exact .reaps _ hcause hchild hdestroy

theorem sysOpen_served (path : Option (List UInt8)) (flags : UInt32) :
    Served self k (.call (.open path flags)) (sysOpen k self path flags).1
      (sysOpen k self path flags).2 := by
  unfold sysOpen
  split
  · exact .returns _ _ _
  split
  · rename_i hopen
    exact .opensNot hopen
  rename_i hopen
  split
  · rename_i hfull
    exact .opensFull hopen hfull
  · rename_i hinstall
    exact .opens hopen hinstall

theorem sysPipe_served (buf : Bool) :
    Served self k (.call (.pipe buf)) (sysPipe k self buf).1
      (sysPipe k self buf).2 := by
  rcases hpipe : sysPipe k self buf with ⟨outcome, k'⟩
  have hresult := hpipe
  unfold sysPipe at hresult
  dsimp only at hresult
  split_ifs at hresult with hvalid
  · split at hresult
    all_goals
      obtain ⟨rfl, rfl⟩ := Prod.mk.inj hresult
      exact .pipes hvalid hpipe rfl
  · obtain ⟨rfl, rfl⟩ := Prod.mk.inj hresult
    exact .returns _ _ _

theorem sysDup2_served (oldfd newfd : Nat) :
    Served self k (.call (.dup2 oldfd newfd)) (sysDup2 k self oldfd newfd).1
      (sysDup2 k self oldfd newfd).2 := by
  unfold sysDup2
  split
  · exact .returns _ _ _
  rename_i f hopen
  split_ifs with hrange hsame
  · exact .returns _ _ _
  · exact .returns _ _ _
  · exact .dups hopen (Nat.lt_of_not_le hrange) hsame rfl

theorem sysFork_served {entry : Nat} {result : Outcome × Kernel}
    (hfork : sysFork k self entry = some result) :
    Served self k (.call (.fork entry)) result.1 result.2 := by
  unfold sysFork at hfork
  split_ifs at hfork
  · exact fail_served _ hfork
  obtain ⟨forked, hproc, rfl⟩ := Option.map_eq_some_iff.mp hfork
  split <;> exact .forks _ hproc

theorem sysExec_served (pid entry : Nat) :
    Served self k (.call (.exec pid entry)) (sysExec k pid entry).1
      (sysExec k pid entry).2 := by
  unfold sysExec
  split
  · exact .returns _ _ _
  rename_i p hget
  dsimp only
  split_ifs with hentry
  · exact .returns _ _ _
  · exact .execs _ hget hentry
  · exact .execs _ hget hentry

/-- Every system call is one of the cases. -/
theorem syscallDispatch_served {call : Syscall} {result : Outcome × Kernel}
    (hcall : syscallDispatch k self call = some result) :
    Served self k (.call call) result.1 result.2 := by
  cases call with
  | yield =>
      rw [← Option.some.inj hcall]
      exact .returns _ _ _
  | exit code =>
      rw [← Option.some.inj hcall]
      exact .exits code
  | getpid =>
      rw [← Option.some.inj hcall]
      exact .returns _ _ _
  | sleep ticks =>
      rw [← Option.some.inj hcall]
      unfold sysSleep
      split_ifs
      · exact .returns _ _ _
      · exact .sleeps ticks
  | fork entry => exact sysFork_served hcall
  | exec pid entry =>
      rw [← Option.some.inj hcall]
      exact sysExec_served pid entry
  | write fd buf len =>
      simp only [syscallDispatch, sysWrite] at hcall
      split_ifs at hcall
      · split at hcall
        · exact fail_served _ hcall
        · exact vfsWrite_served hcall
      · exact fail_served _ hcall
  | read fd buf len =>
      simp only [syscallDispatch, sysRead] at hcall
      split_ifs at hcall
      · split at hcall
        · exact fail_served _ hcall
        · exact vfsRead_served hcall
      · exact fail_served _ hcall
  | «open» path flags =>
      rw [← Option.some.inj hcall]
      exact sysOpen_served path flags
  | close fd =>
      rw [← Option.some.inj hcall]
      unfold sysClose
      split
      · exact .returns _ _ _
      · rename_i hopen
        exact .closes hopen
  | pipe buf =>
      rw [← Option.some.inj hcall]
      exact sysPipe_served buf
  | dup2 oldfd newfd =>
      rw [← Option.some.inj hcall]
      exact sysDup2_served oldfd newfd
  | wait pid outCode => exact procWait_served rfl hcall
  | unknown => exact fail_served _ hcall

theorem resumeCall_served {src : Nat → UInt8} {cont : Cont}
    {result : Outcome × Kernel}
    (hresume : resumeCall k self src cont = some result) :
    Served self (resumed k self cont) (.resume cont) result.1 result.2 := by
  cases cont with
  | exit =>
      rw [← Option.some.inj hresume]
      exact .returns _ _ _
  | sleep =>
      rw [← Option.some.inj hresume]
      exact .returns _ _ _
  | wait pid outCode => exact procWait_served rfl hresume
  | pipeRead f p len moved =>
      exact pipeSegment_served (.readOn f p len moved) hresume
  | pipeWrite f p len moved =>
      exact pipeSegment_served (.writeOn f p src len moved) hresume
  | kbdRead f len =>
      rw [← Option.some.inj hresume]
      exact kbdRead_served _ f len

/-- A segment is an interrupt, a system call or the rest of one. -/
inductive Handles (self : Nat) (k : Kernel) :
    Event → Outcome → Kernel → Prop where
  | timer (hresume : k.resume = none) :
      Handles self k .timer (.ret 0 .none) (timerHandler k)
  | key (scancode : UInt8) (hresume : k.resume = none) :
      Handles self k (.key scancode) (.ret 0 .none) (keyHandler k scancode)
  | call {call : Syscall} {outcome : Outcome} {k' : Kernel}
      (hresume : k.resume = none)
      (hcall : syscallDispatch k self call = some (outcome, k')) :
      Handles self k (.syscall call) outcome k'
  | resume {src : Nat → UInt8} {cont : Cont} {outcome : Outcome} {k' : Kernel}
      (hresume : k.resume = some cont)
      (hcall : resumeCall k self src cont = some (outcome, k')) :
      Handles self k (.resume src) outcome k'

theorem handler_handles {event : Event}
    (hhandler : k.handler event = some (outcome, k')) :
    ∃ self, k.currentProc = some self ∧ Handles self k event outcome k' := by
  unfold Kernel.handler at hhandler
  split at hhandler
  · cases hhandler
  rename_i self hcurrent
  refine ⟨self, hcurrent, ?_⟩
  split at hhandler
  · rename_i hresume
    obtain ⟨rfl, rfl⟩ := Prod.mk.inj (Option.some.inj hhandler)
    exact .timer hresume
  · rename_i hresume
    obtain ⟨rfl, rfl⟩ := Prod.mk.inj (Option.some.inj hhandler)
    exact .key _ hresume
  · rename_i hresume
    exact .call hresume hhandler
  · rename_i hresume
    exact .resume hresume hhandler
  · cases hhandler

theorem step_eq_some {event : Event} (hstep : k.step event = some k') :
    ∃ outcome k₁, k.handler event = some (outcome, k₁) ∧
      k' = settle (outcome, k₁) := by
  rw [step_eq_handler] at hstep
  obtain ⟨⟨outcome, k₁⟩, hhandler, hsettle⟩ := Option.map_eq_some_iff.mp hstep
  exact ⟨outcome, k₁, hhandler, hsettle.symm⟩

end Cases

end Orion
