/-
What a segment of the kernel does to the process table.  Wake-ups and
bookkeeping change next to nothing; the few functions that do more are named
by a case of `Handled`, and every segment ends with a switch.
-/
import Orion.KernelLifecycle
import Orion.VfsTypes

namespace Orion

/-- The fields that tie a process to its relatives and its stack. -/
structure Kin where
  pid : Nat
  ppid : Nat
  kstackBase : Option Ref
  waiting : Bool
  waitForPid : Nat

def Pcb.kin (pcb : Pcb) : Kin :=
  ⟨pcb.pid, pcb.ppid, pcb.kstackBase, pcb.waiting, pcb.waitForPid⟩

/-- Only timeslices, ticks and the like have changed. -/
structure Still (k k' : Kernel) : Prop where
  kin : ∀ pid, (k'.procs pid).kin = (k.procs pid).kin
  frame : ∀ pid, (k'.procs pid).espKernel = (k.procs pid).espKernel
  state : ∀ pid, k'.state pid = k.state pid
  table : ∀ pid, (k'.procs pid).fdTable = (k.procs pid).fdTable
  store : k'.store = k.store
  bitmap : k'.pidBitmap = k.pidBitmap
  hint : k'.pidSearchHint = k.pidSearchHint
  current : k'.currentProc = k.currentProc

/-- Besides that, BLOCKED processes may have become READY; descriptors and
heap objects may be others. -/
structure Stirs (k k' : Kernel) : Prop where
  kin : ∀ pid, (k'.procs pid).kin = (k.procs pid).kin
  frame : ∀ pid, (k'.procs pid).espKernel = (k.procs pid).espKernel
  state : ∀ pid, k'.state pid = k.state pid ∨
    (k.state pid = .blocked ∧ k'.state pid = .ready)
  bitmap : k'.pidBitmap = k.pidBitmap
  hint : k'.pidSearchHint = k.pidSearchHint
  current : k'.currentProc = k.currentProc

/-- No descriptor has changed, and the heap only quietly. -/
structure Calm (k k' : Kernel) : Prop extends Stirs k k' where
  table : ∀ pid, (k'.procs pid).fdTable = (k.procs pid).fdTable
  store : Typed k.store → Quiet k.store k'.store

section Bookkeeping

variable {k k' k'' : Kernel}

theorem Still.refl (k : Kernel) : Still k k :=
  ⟨fun _ => rfl, fun _ => rfl, fun _ => rfl, fun _ => rfl, rfl, rfl, rfl, rfl⟩

theorem Still.trans (hfirst : Still k k') (hsecond : Still k' k'') :
    Still k k'' where
  kin := fun pid => (hsecond.kin pid).trans (hfirst.kin pid)
  frame := fun pid => (hsecond.frame pid).trans (hfirst.frame pid)
  state := fun pid => (hsecond.state pid).trans (hfirst.state pid)
  table := fun pid => (hsecond.table pid).trans (hfirst.table pid)
  store := hsecond.store.trans hfirst.store
  bitmap := hsecond.bitmap.trans hfirst.bitmap
  hint := hsecond.hint.trans hfirst.hint
  current := hsecond.current.trans hfirst.current

/-- Fields outside the table do not count. -/
theorem Still.of_procs (hprocs : k'.procs = k.procs)
    (hstore : k'.store = k.store) (hbitmap : k'.pidBitmap = k.pidBitmap)
    (hhint : k'.pidSearchHint = k.pidSearchHint)
    (hcurrent : k'.currentProc = k.currentProc) : Still k k' := by
  refine ⟨?_, ?_, ?_, ?_, hstore, hbitmap, hhint, hcurrent⟩
  all_goals
    intro pid
    simp only [Kernel.state, hprocs]

/-- A table with one new entry. -/
theorem forall_setPcb {P : Nat → Pcb → Prop} {pid : Nat} {pcb : Pcb}
    (hself : P pid pcb) (hother : ∀ other ≠ pid, P other (k.procs other)) :
    ∀ other, P other ((k.setPcb pid pcb).procs other) :=
  (Function.forall_update_iff k.procs P).mpr ⟨hself, hother⟩

theorem Still.setPcb {pid : Nat} {pcb : Pcb}
    (hkin : pcb.kin = (k.procs pid).kin)
    (hframe : pcb.espKernel = (k.procs pid).espKernel)
    (hstate : pcb.state = (k.procs pid).state)
    (htable : pcb.fdTable = (k.procs pid).fdTable) :
    Still k (k.setPcb pid pcb) where
  kin := forall_setPcb (P := fun other new =>
    new.kin = (k.procs other).kin) hkin fun _ _ => rfl
  frame := forall_setPcb (P := fun other new =>
    new.espKernel = (k.procs other).espKernel) hframe fun _ _ => rfl
  state := forall_setPcb (P := fun other new =>
    new.state = k.state other) hstate fun _ _ => rfl
  table := forall_setPcb (P := fun other new =>
    new.fdTable = (k.procs other).fdTable) htable fun _ _ => rfl
  store := rfl
  bitmap := rfl
  hint := rfl
  current := rfl

theorem Stirs.setPcb {pid : Nat} {pcb : Pcb}
    (hkin : pcb.kin = (k.procs pid).kin)
    (hframe : pcb.espKernel = (k.procs pid).espKernel)
    (hstate : pcb.state = k.state pid ∨
      (k.state pid = .blocked ∧ pcb.state = .ready)) :
    Stirs k (k.setPcb pid pcb) where
  kin := forall_setPcb (P := fun other new =>
    new.kin = (k.procs other).kin) hkin fun _ _ => rfl
  frame := forall_setPcb (P := fun other new =>
    new.espKernel = (k.procs other).espKernel) hframe fun _ _ => rfl
  state := forall_setPcb (P := fun other new => new.state = k.state other ∨
    (k.state other = .blocked ∧ new.state = .ready)) hstate
    fun _ _ => .inl rfl
  bitmap := rfl
  hint := rfl
  current := rfl

theorem Still.calm (hstill : Still k k') : Calm k k' where
  kin := hstill.kin
  frame := hstill.frame
  state := fun pid => .inl (hstill.state pid)
  bitmap := hstill.bitmap
  hint := hstill.hint
  current := hstill.current
  table := hstill.table
  store := by
    rw [hstill.store]
    exact Quiet.refl

theorem Stirs.trans (hfirst : Stirs k k') (hsecond : Stirs k' k'') :
    Stirs k k'' := by
  refine ⟨fun pid => (hsecond.kin pid).trans (hfirst.kin pid),
    fun pid => (hsecond.frame pid).trans (hfirst.frame pid), ?_,
    hsecond.bitmap.trans hfirst.bitmap, hsecond.hint.trans hfirst.hint,
    hsecond.current.trans hfirst.current⟩
  intro pid
  rcases hfirst.state pid with hsame | ⟨hblocked, hready⟩
  · rcases hsecond.state pid with hsame' | ⟨hblocked, hready⟩
    · exact .inl (hsame'.trans hsame)
    · exact .inr ⟨hsame ▸ hblocked, hready⟩
  · rcases hsecond.state pid with hsame' | ⟨hblocked', -⟩
    · exact .inr ⟨hblocked, hsame'.trans hready⟩
    · rw [hready] at hblocked'
      cases hblocked'

/-- A stir neither makes nor ends any state but BLOCKED and READY. -/
theorem Stirs.state_iff (hstirs : Stirs k k') {pid : Nat} {state : ProcState}
    (hblocked : state ≠ .blocked) (hready : state ≠ .ready) :
    k'.state pid = state ↔ k.state pid = state := by
  rcases hstirs.state pid with hsame | ⟨hold, hnew⟩
  · rw [hsame]
  · rw [hold, hnew]
    exact ⟨fun h => absurd h.symm hready, fun h => absurd h.symm hblocked⟩

theorem Calm.refl (k : Kernel) : Calm k k := (Still.refl k).calm

theorem Calm.trans (hfirst : Calm k k') (hsecond : Calm k' k'') :
    Calm k k'' where
  toStirs := hfirst.toStirs.trans hsecond.toStirs
  table := fun pid => (hsecond.table pid).trans (hfirst.table pid)
  store := fun htyped =>
    (hfirst.store htyped).trans (hsecond.store (hfirst.store htyped).typed)

/-- A new store, as quiet as the old one. -/
theorem Calm.setStore {store : Store}
    (hquiet : Typed k.store → Quiet k.store store) :
    Calm k (k.setStore store) where
  kin := fun _ => rfl
  frame := fun _ => rfl
  state := fun _ => .inl rfl
  bitmap := rfl
  hint := rfl
  current := rfl
  table := fun _ => rfl
  store := hquiet

theorem schedAdd_still (k : Kernel) (pid : Nat) : Still k (schedAdd k pid) := by
  unfold schedAdd
  split_ifs <;> exact Still.of_procs rfl rfl rfl rfl rfl

theorem schedRemove_still (k : Kernel) (pid : Nat) :
    Still k (schedRemove k pid) := Still.of_procs rfl rfl rfl rfl rfl

theorem procWake_calm (k : Kernel) (pid : Nat) : Calm k (procWake k pid) := by
  unfold procWake
  split_ifs with hblocked
  · exact Calm.refl k
  have hset : Calm k (k.setPcb pid
      { k.procs pid with wakeupTick := 0, state := .ready }) :=
    ⟨Stirs.setPcb rfl rfl (.inr ⟨not_not.mp hblocked, rfl⟩),
      forall_setPcb (P := fun other new =>
        new.fdTable = (k.procs other).fdTable) rfl fun _ _ => rfl, Quiet.refl⟩
  exact hset.trans (schedAdd_still _ pid).calm

theorem wakeAll_calm (k : Kernel) (pids : List Nat) :
    Calm k (wakeAll k pids) := by
  induction pids generalizing k with
  | nil => exact Calm.refl k
  | cons pid rest ih =>
      rw [wakeAll]
      cases procGet k pid with
      | none => exact ih k
      | some pid => exact (procWake_calm k pid).trans (ih _)

theorem procWake_store (k : Kernel) (pid : Nat) :
    (procWake k pid).store = k.store := by
  unfold procWake
  split_ifs
  · rfl
  · exact (schedAdd_still _ pid).store

theorem wakeAll_store (k : Kernel) (pids : List Nat) :
    (wakeAll k pids).store = k.store := by
  induction pids generalizing k with
  | nil => rfl
  | cons pid rest ih =>
      rw [wakeAll]
      cases procGet k pid with
      | none => exact ih k
      | some pid => exact (ih _).trans (procWake_store k pid)

theorem tickScan_calm (k : Kernel) (pids : List Nat) :
    Calm k (tickScan k pids) := by
  induction pids generalizing k with
  | nil => exact Calm.refl k
  | cons pid rest ih =>
      rw [tickScan]
      split_ifs
      · exact (procWake_calm k pid).trans (ih _)
      · exact ih k

theorem timerHandler_calm (k : Kernel) : Calm k (timerHandler k) := by
  have hstill : Still k { k with
      tickCount := MachineInt.u32 (k.tickCount + 1), tickFlag := true } :=
    Still.of_procs rfl rfl rfl rfl rfl
  exact hstill.calm.trans (tickScan_calm _ _)

theorem keyHandler_calm (k : Kernel) (scancode : UInt8) :
    Calm k (keyHandler k scancode) := by
  have hstill : Still k { k with
      keyboard := (keyboardHandler k.keyboard scancode).2 } :=
    Still.of_procs rfl rfl rfl rfl rfl
  exact hstill.calm.trans (wakeAll_calm _ _)

theorem wakeParent_calm (k : Kernel) (self : Nat) :
    Calm k (wakeParent k self) := by
  unfold wakeParent
  dsimp only
  split_ifs
  · exact Calm.refl k
  split
  · exact Calm.refl k
  split_ifs
  · exact procWake_calm k _
  · exact Calm.refl k

/-- Whatever happens to a descriptor table, the process table only stirs. -/
theorem withTable_stirs (k : Kernel) (pid : Nat)
    (result : List Nat × Store × FdTable) :
    Stirs k (withTable k pid result) := by
  have hstore : Stirs k (k.setStore result.2.1) :=
    ⟨fun _ => rfl, fun _ => rfl, fun _ => .inl rfl, rfl, rfl, rfl⟩
  have hset : Stirs (k.setStore result.2.1)
      ((k.setStore result.2.1).setPcb pid
        { k.procs pid with fdTable := result.2.2 }) :=
    Stirs.setPcb rfl rfl (.inl rfl)
  exact hstore.trans (hset.trans (wakeAll_calm _ result.1).toStirs)

end Bookkeeping

/-- Where a process goes on: the current one inside the kernel or in user
mode, any other one from its saved frame. -/
def Kernel.contOf (k : Kernel) (pid : Nat) : Option Cont :=
  if k.currentProc = some pid then k.resume else (k.procs pid).espKernel.cont

/-- A return from `sched_switch_esp`, called with the frame `esp` of the
current process. -/
structure Switches (k : Kernel) (esp : Frame) (k' : Kernel) : Prop where
  kin : ∀ pid, (k'.procs pid).kin = (k.procs pid).kin
  table : ∀ pid, (k'.procs pid).fdTable = (k.procs pid).fdTable
  store : k'.store = k.store
  bitmap : k'.pidBitmap = k.pidBitmap
  hint : k'.pidSearchHint = k.pidSearchHint
  state : ∀ pid, k'.state pid = k.state pid ∨
    (k.state pid = .running ∧ k'.state pid = .ready) ∨
    (k.state pid = .ready ∧ k'.state pid = .running)
  frame : ∀ pid, (k'.procs pid).espKernel = (k.procs pid).espKernel ∨
    (k.currentProc = some pid ∧ (k'.procs pid).espKernel = esp)
  current : k'.currentProc = k.currentProc ∨
    ∃ next, k'.currentProc = some next ∧ k.state next = .ready
  cont : (∀ pid, k.state pid = .ready → (k.procs pid).espKernel ≠ .null) →
    ∀ pid, k'.contOf pid = if k.currentProc = some pid then esp.cont
      else (k.procs pid).espKernel.cont

section Switching

variable {k j k' : Kernel} {esp : Frame}

theorem Switches.of_still (hstill : Still k j) (hswitch : Switches j esp k') :
    Switches k esp k' where
  kin := fun pid => (hswitch.kin pid).trans (hstill.kin pid)
  table := fun pid => (hswitch.table pid).trans (hstill.table pid)
  store := hswitch.store.trans hstill.store
  bitmap := hswitch.bitmap.trans hstill.bitmap
  hint := hswitch.hint.trans hstill.hint
  state := by
    intro pid
    rw [← hstill.state pid]
    exact hswitch.state pid
  frame := by
    intro pid
    rw [← hstill.frame pid, ← hstill.current]
    exact hswitch.frame pid
  current := by
    rcases hswitch.current with hsame | ⟨next, hnext, hready⟩
    · exact .inl (hsame.trans hstill.current)
    · exact .inr ⟨next, hnext, (hstill.state next).symm.trans hready⟩
  cont := by
    intro hframes pid
    rw [← hstill.frame pid, ← hstill.current]
    apply hswitch.cont
    intro other hready
    rw [hstill.frame other]
    exact hframes other ((hstill.state other).symm.trans hready)

/-- The current process keeps the processor. -/
theorem Switches.stay (hstill : Still k k') (hresume : k'.resume = esp.cont) :
    Switches k esp k' where
  kin := hstill.kin
  table := hstill.table
  store := hstill.store
  bitmap := hstill.bitmap
  hint := hstill.hint
  state := fun pid => .inl (hstill.state pid)
  frame := fun pid => .inl (hstill.frame pid)
  current := .inl hstill.current
  cont := by
    intro _ pid
    rw [Kernel.contOf, hresume, hstill.current, hstill.frame pid]

/-- The processor goes to another process. -/
theorem saveCurrent_activate_switches {cur next : Nat} (idx : Nat)
    (hcurrent : k.currentProc = some cur) (hne : next ≠ cur)
    (hready : k.state next = .ready) :
    Switches k esp (activate (saveCurrent k cur esp) next idx esp) := by
  have hkin : ∀ pid, ((saveCurrent k cur esp).procs pid).kin =
      (k.procs pid).kin :=
    forall_setPcb (P := fun pid new => new.kin = (k.procs pid).kin) rfl
      fun _ _ => rfl
  have htable : ∀ pid, ((saveCurrent k cur esp).procs pid).fdTable =
      (k.procs pid).fdTable :=
    forall_setPcb (P := fun pid new => new.fdTable = (k.procs pid).fdTable)
      rfl fun _ _ => rfl
  have hframe : ∀ pid, ((saveCurrent k cur esp).procs pid).espKernel =
      if k.currentProc = some pid then esp else (k.procs pid).espKernel := by
    rw [hcurrent]
    refine forall_setPcb (P := fun pid new => new.espKernel =
      if some cur = some pid then esp else (k.procs pid).espKernel) ?_ ?_
    · exact (if_pos rfl).symm
    · intro other hother
      exact (if_neg fun h => hother (Option.some.inj h).symm).symm
  have hstate : ∀ pid, ((saveCurrent k cur esp).procs pid).state =
      k.state pid ∨ (k.state pid = .running ∧
        ((saveCurrent k cur esp).procs pid).state = .ready) := by
    refine forall_setPcb (P := fun pid new => new.state = k.state pid ∨
      (k.state pid = .running ∧ new.state = .ready)) ?_ fun _ _ => .inl rfl
    by_cases hrunning : (k.procs cur).state = .running
    · exact .inr ⟨hrunning, if_pos hrunning⟩
    · exact .inl (if_neg hrunning)
  have hframe' : ∀ pid, ((activate (saveCurrent k cur esp) next idx
      esp).procs pid).espKernel =
      if k.currentProc = some pid then esp else (k.procs pid).espKernel :=
    forall_setPcb (P := fun pid new => new.espKernel =
      if k.currentProc = some pid then esp else (k.procs pid).espKernel)
      (hframe next) fun pid _ => hframe pid
  refine ⟨?_, ?_, rfl, rfl, rfl, ?_, ?_, .inr ⟨next, rfl, hready⟩, ?_⟩
  · exact forall_setPcb (P := fun pid new => new.kin = (k.procs pid).kin)
      (hkin next) fun pid _ => hkin pid
  · exact forall_setPcb (P := fun pid new =>
      new.fdTable = (k.procs pid).fdTable) (htable next) fun pid _ => htable pid
  · refine forall_setPcb (P := fun pid new => new.state = k.state pid ∨
      (k.state pid = .running ∧ new.state = .ready) ∨
      (k.state pid = .ready ∧ new.state = .running)) ?_ ?_
    · exact .inr (.inr ⟨hready, rfl⟩)
    · intro pid _
      rcases hstate pid with hsame | hstep
      · exact .inl hsame
      · exact .inr (.inl hstep)
  · intro pid
    rw [hframe' pid]
    split_ifs with hpid
    · exact .inr ⟨hpid, rfl⟩
    · exact .inl rfl
  · intro hframes pid
    have hnext : k.currentProc ≠ some next := by
      rw [hcurrent]
      exact fun h => hne (Option.some.inj h).symm
    by_cases hpid : pid = next
    · subst hpid
      have hsaved : ((saveCurrent k cur esp).procs pid).espKernel =
          (k.procs pid).espKernel := (hframe pid).trans (if_neg hnext)
      rw [if_neg hnext, ← hsaved]
      refine (if_pos rfl).trans (if_neg ?_)
      rw [hsaved]
      exact hframes pid hready
    · have hother : (activate (saveCurrent k cur esp) next idx
          esp).currentProc ≠ some pid := fun h => hpid (Option.some.inj h).symm
      rw [Kernel.contOf, if_neg hother, hframe' pid]
      split_ifs <;> rfl

theorem schedExpire_switches {cur : Nat} (hcurrent : k.currentProc = some cur)
    (hresume : k.resume = esp.cont) :
    Switches k esp (schedExpire k cur esp) := by
  unfold schedExpire
  split_ifs
  · exact Switches.stay (Still.refl k) hresume
  cases hpick : pickReady k (some cur) k.readyQueue.zipIdx none with
  | none =>
      exact Switches.stay (Still.setPcb rfl rfl rfl rfl) hresume
  | some pick =>
      obtain ⟨hskip, hready, -⟩ := pickReady_queue k hpick
      exact saveCurrent_activate_switches pick.2 hcurrent
        (fun h => hskip (congrArg some h)) hready

theorem schedSwitchEsp_switches (k : Kernel) (esp : Frame) :
    Switches k esp (schedSwitchEsp k esp) := by
  unfold schedSwitchEsp
  split_ifs
  · exact Switches.stay (Still.of_procs rfl rfl rfl rfl rfl) rfl
  have hstart : Still k { k with resume := esp.cont, tickFlag := false } :=
    Still.of_procs rfl rfl rfl rfl rfl
  dsimp only
  split
  · exact Switches.stay hstart rfl
  · rename_i cur hcurrent
    have hcount : Still { k with resume := esp.cont, tickFlag := false }
        (countDown { k with resume := esp.cont, tickFlag := false } cur) :=
      Still.setPcb rfl rfl rfl rfl
    exact Switches.of_still hstart (Switches.of_still hcount
      (schedExpire_switches hcurrent rfl))

theorem schedForceSwitch_still (k : Kernel) :
    Still k (schedForceSwitch k) := by
  have hflag : Still k { k with tickFlag := true } :=
    Still.of_procs rfl rfl rfl rfl rfl
  unfold schedForceSwitch
  dsimp only
  split
  · exact hflag
  · exact hflag.trans (Still.setPcb rfl rfl rfl rfl)

/-- The frame a segment leaves on the stack. -/
def Outcome.frame : Outcome → Frame
  | .ret _ _ => .user
  | .yield cont => .kernel cont

theorem settle_switches (result : Outcome × Kernel) :
    Switches result.2 result.1.frame (settle result) := by
  obtain ⟨outcome, k⟩ := result
  cases outcome with
  | ret value reply => exact schedSwitchEsp_switches k .user
  | yield cont =>
      exact Switches.of_still (schedForceSwitch_still k)
        (schedSwitchEsp_switches _ _)

end Switching

/-- A sleep that is neither the end of a process nor the wait for a child. -/
def Cont.isSleep : Cont → Bool
  | .exit => false
  | .wait _ _ => false
  | _ => true

/-- What the handler of a segment of `self` can do, up to its return or its
`sched_yield`. -/
inductive Handled (self : Nat) (k : Kernel) :
    Cause → Outcome → Kernel → Prop where
  | calm {cause : Cause} {value : Int} {reply : Reply} {k' : Kernel}
      (hcalm : Calm k k') : Handled self k cause (.ret value reply) k'
  | sleeps {cause : Cause} {cont : Cont} {k' : Kernel} (hcalm : Calm k k')
      (hcont : cont.isSleep = true) :
      Handled self k cause (.yield cont) (blockSelf k' self)
  | exits (code : Int) :
      Handled self k (.call (.exit code)) (.yield .exit) (procExit k self code)
  | forks {entry : Nat} {value : Int} {reply : Reply}
      {result : Option Nat × Kernel}
      (hfork : procFork k self entry = some result) :
      Handled self k (.call (.fork entry)) (.ret value reply) result.2
  | execs {pid entry p : Nat} {value : Int} {reply : Reply}
      (hget : procGet k (pid % 2 ^ 16) = some p) :
      Handled self k (.call (.exec pid entry)) (.ret value reply)
        (procExec k p entry).2
  | opens {path : Option (List UInt8)} {flags : UInt32} {value : Int}
      {reply : Reply} {k' : Kernel}
      (hopen : sysOpen k self path flags = (.ret value reply, k')) :
      Handled self k (.call (.open path flags)) (.ret value reply) k'
  | closes {fd : Nat} {value : Int} {reply : Reply} {k' : Kernel}
      (hclose : sysClose k self fd = (.ret value reply, k')) :
      Handled self k (.call (.close fd)) (.ret value reply) k'
  | pipes {buf : Bool} {value : Int} {reply : Reply} {k' : Kernel}
      (hpipe : sysPipe k self buf = (.ret value reply, k')) :
      Handled self k (.call (.pipe buf)) (.ret value reply) k'
  | dups {oldfd newfd : Nat} {value : Int} {reply : Reply} {k' : Kernel}
      (hdup : sysDup2 k self oldfd newfd = (.ret value reply, k')) :
      Handled self k (.call (.dup2 oldfd newfd)) (.ret value reply) k'
  | reaps {cause : Cause} {pid child : Nat} {outCode : Bool} {reply : Reply}
      {k' : Kernel} (hcause : cause.waitsFor = some (pid, outCode))
      (hchild : zombieChild k self pid = some child)
      (hdestroy : procDestroy k child = some k') :
      Handled self k cause (.ret (k.procs child).pid reply) k'
  | waits {cause : Cause} {pid : Nat} {outCode : Bool}
      (hcause : cause.waitsFor = some (pid, outCode))
      (hnone : zombieChild k self pid = none) :
      Handled self k cause (.yield (.wait pid outCode)) (waitBlock k self pid)

section Handlers

variable {k : Kernel} {self : Nat}

theorem Transfers.calm {pipes : Prop} {store : Store}
    (htransfers : Transfers pipes k.store store) :
    Calm k (k.setStore store) := Calm.setStore htransfers.quiet

theorem readDone_calm (k : Kernel) (f : Ref) (n : Int) :
    Calm k (readDone k f n) := by
  obtain ⟨store, heq, htransfers⟩ := @readDone_transfers False k f n
  exact heq ▸ htransfers.calm

theorem writeDone_calm (k : Kernel) (f : Ref) (n : Int) :
    Calm k (writeDone k f n) := by
  obtain ⟨store, heq, htransfers⟩ := @writeDone_transfers False k f n
  exact heq ▸ htransfers.calm

theorem seekAppend_calm (k : Kernel) (f : Ref) :
    Calm k (k.setStore (seekAppend k.store f)) :=
  (@seekAppend_transfers False k.store f).calm

theorem pipeDone_calm (isWrite : Bool) (k : Kernel) (f : Ref) (n : Int) :
    Calm k (pipeDone isWrite k f n) := by
  cases isWrite
  · exact readDone_calm k f n
  · exact writeDone_calm k f n

theorem PipeMoves.calm {cause : Cause} {k₀ : Kernel} {f p : Ref}
    {isWrite : Bool} {len : Nat} {segment : PipeExit × PipeCall}
    (hmoves : PipeMoves k cause k₀ f p isWrite len segment) :
    Calm k (pipeMoved k₀ p segment.2) := by
  have hpipe (hends : (k₀.store.pipes p).SameEnds segment.2.pipe) :
      Calm k₀ (pipeMoved k₀ p segment.2) :=
    (Calm.setStore fun htyped => setPipe_quiet htyped hends).trans
      (wakeAll_calm _ _)
  cases hmoves with
  | read => exact hpipe (pipeReadLoop_sameEnds _ _ _)
  | readOn => exact hpipe (pipeReadLoop_sameEnds _ _ _)
  | write =>
      exact (seekAppend_calm k f).trans (hpipe (pipeWriteLoop_sameEnds _ _ _ _))
  | writeOn => exact hpipe (pipeWriteResume_sameEnds _ _ _)

/-- Every segment is one of the cases. -/
theorem Served.handled {cause : Cause} {outcome : Outcome} {k' : Kernel}
    (hserved : Served self k cause outcome k') :
    Handled self k cause outcome k' := by
  cases hserved with
  | returns => exact .calm (Calm.refl k)
  | reads _ f n => exact .calm (readDone_calm k f n)
  | takes _ f len n =>
      have htake : Still k { k with keyboard := (k.keyboard.take len).2 } :=
        Still.of_procs rfl rfl rfl rfl rfl
      exact .calm (htake.calm.trans (readDone_calm _ f n))
  | awaitsKey =>
      have hwaiter : Still k { k with keyboard := { k.keyboard with
          waiterPid := ((blockSelf k self).procs self).pid } } :=
        Still.of_procs rfl rfl rfl rfl rfl
      exact .sleeps hwaiter.calm rfl
  | @stores _ f _ _ written hwrite =>
      have hstore : Calm (k.setStore (seekAppend k.store f))
          ((k.setStore (seekAppend k.store f)).setStore written.2) :=
        (@ramfsWrite_transfers False _ _ _ _ _ _ hwrite).calm
      exact .calm ((seekAppend_calm k f).trans
        (hstore.trans (writeDone_calm _ f _)))
  | prints _ f n =>
      exact .calm ((seekAppend_calm k f).trans (writeDone_calm _ f n))
  | moves hmoves => exact .calm (hmoves.calm.trans (pipeDone_calm _ _ _ _))
  | @awaitsPipe _ k₀ _ p isWrite _ segment hmoves =>
      refine .sleeps (hmoves.calm.trans (Calm.setStore fun htyped => ?_)) ?_
      · apply setPipe_quiet htyped
        rw [pipeMoved, wakeAll_store]
        simp only [Kernel.setStore, Store.setPipe, Function.update_self]
        exact pipeBlock_sameEnds _ _ _
      · cases isWrite <;> rfl
  | sleeps ticks =>
      have htick : Still k (k.setPcb self { k.procs self with
          wakeupTick := MachineInt.u32 (k.tickCount + ticks) }) :=
        Still.setPcb rfl rfl rfl rfl
      exact .sleeps htick.calm rfl
  | exits code => exact .exits code
  | forks _ hfork => exact .forks hfork
  | execs _ hget => exact .execs hget
  | opensNot hopen => exact .opens (by simp only [sysOpen, hopen, fail])
  | opensFull hopen hfull =>
      exact .opens (by simp only [sysOpen, hopen, hfull, fail])
  | opens hopen hinstall =>
      exact .opens (by simp only [sysOpen, hopen, hinstall])
  | closes hopen => exact .closes (by simp only [sysClose, hopen])
  | pipes _ hpipe => exact .pipes hpipe
  | dups hopen hrange hne hclose =>
      refine .dups ?_
      simp only [sysDup2, hopen, if_neg (Nat.not_le.mpr hrange), if_neg hne,
        hclose]
  | reaps _ hcause hchild hdestroy => exact .reaps hcause hchild hdestroy
  | waits hcause hnone => exact .waits hcause hnone

theorem syscallDispatch_handled {call : Syscall} {result : Outcome × Kernel}
    (hcall : syscallDispatch k self call = some result) :
    Handled self k (.call call) result.1 result.2 :=
  (syscallDispatch_served hcall).handled

theorem resumeCall_handled {src : Nat → UInt8} {cont : Cont}
    {result : Outcome × Kernel}
    (hresume : resumeCall k self src cont = some result) :
    Handled self (resumed k self cont) (.resume cont) result.1 result.2 :=
  (resumeCall_served hresume).handled

/-- A step of the kernel: an interrupt, a system call, or the rest of one. -/
inductive Segment (k : Kernel) : Event → Kernel → Prop where
  | interrupt {event : Event} {k₁ k' : Kernel} (hcalm : Calm k k₁)
      (hresume : k.resume = none) (hswitch : Switches k₁ .user k') :
      Segment k event k'
  | call {self : Nat} {call : Syscall} {outcome : Outcome} {k₁ k' : Kernel}
      (hcurrent : k.currentProc = some self) (hresume : k.resume = none)
      (hhandled : Handled self k (.call call) outcome k₁)
      (hswitch : Switches k₁ outcome.frame k') : Segment k (.syscall call) k'
  | resume {self : Nat} {src : Nat → UInt8} {cont : Cont} {outcome : Outcome}
      {k₁ k' : Kernel} (hcurrent : k.currentProc = some self)
      (hresume : k.resume = some cont)
      (hhandled : Handled self (resumed k self cont) (.resume cont) outcome k₁)
      (hswitch : Switches k₁ outcome.frame k') : Segment k (.resume src) k'

theorem step_segment {k' : Kernel} {event : Event}
    (hstep : k.step event = some k') : Segment k event k' := by
  obtain ⟨outcome, k₁, hhandler, rfl⟩ := step_eq_some hstep
  obtain ⟨self, hcurrent, hhandles⟩ := handler_handles hhandler
  have hswitch := settle_switches (outcome, k₁)
  cases hhandles with
  | timer hresume => exact .interrupt (timerHandler_calm k) hresume hswitch
  | key _ hresume => exact .interrupt (keyHandler_calm k _) hresume hswitch
  | call hresume hcall =>
      exact .call hcurrent hresume (syscallDispatch_handled hcall) hswitch
  | resume hresume hcall =>
      exact .resume hcurrent hresume (resumeCall_handled hcall) hswitch

/-- A system call runs to its end or to its `sched_yield`. -/
theorem step_syscall {k' : Kernel} {call : Syscall}
    (hstep : k.step (.syscall call) = some k') :
    ∃ self result, k.currentProc = some self ∧
      syscallDispatch k self call = some result ∧ k' = settle result := by
  obtain ⟨outcome, k₁, hhandler, rfl⟩ := step_eq_some hstep
  obtain ⟨self, hcurrent, hhandles⟩ := handler_handles hhandler
  cases hhandles with
  | call _ hcall => exact ⟨self, (outcome, k₁), hcurrent, hcall, rfl⟩

end Handlers

end Orion
