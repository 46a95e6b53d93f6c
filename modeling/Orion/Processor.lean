/-
Who has the processor.  A process that goes to sleep or ends gives it up only
if `sched_switch_esp` finds another one; otherwise it goes on, BLOCKED or
ZOMBIE, as if nothing had happened.
-/
import Orion.Dispatch
import Orion.Sleepers

namespace Orion

/-- The flags that only the scheduler and the timer change. -/
def Kernel.flags (k : Kernel) : Bool × Bool := (k.schedEnabled, k.tickFlag)

/-- The same with the clock. -/
def Kernel.timing (k : Kernel) : Bool × Bool × Nat :=
  (k.schedEnabled, k.tickFlag, k.tickCount)

section Timing

variable (k : Kernel) (pid self : Nat)

@[simp] theorem timing_setPcb (pcb : Pcb) : (k.setPcb pid pcb).timing = k.timing :=
  rfl

@[simp] theorem timing_setStore (store : Store) :
    (k.setStore store).timing = k.timing := rfl

@[simp] theorem timing_schedRemove : (schedRemove k pid).timing = k.timing := rfl

@[simp] theorem timing_schedAdd : (schedAdd k pid).timing = k.timing := by
  unfold schedAdd
  split_ifs <;> rfl

@[simp] theorem timing_procWake : (procWake k pid).timing = k.timing := by
  unfold procWake
  split_ifs <;> simp

@[simp] theorem timing_wakeAll (pids : List Nat) :
    (wakeAll k pids).timing = k.timing := by
  induction pids generalizing k with
  | nil => rfl
  | cons pid rest ih =>
      rw [wakeAll]
      split <;> simp [ih]

@[simp] theorem timing_tickScan (pids : List Nat) :
    (tickScan k pids).timing = k.timing := by
  induction pids generalizing k with
  | nil => rfl
  | cons pid rest ih =>
      rw [tickScan]
      split_ifs <;> simp [ih]

@[simp] theorem timing_withTable (result : List Nat × Store × FdTable) :
    (withTable k pid result).timing = k.timing := by
  simp [withTable]

@[simp] theorem timing_closeFiles : (closeFiles k pid).timing = k.timing := by
  simp [closeFiles]

@[simp] theorem timing_pidFree : (pidFree k pid).timing = k.timing := by
  unfold pidFree
  split_ifs <;> rfl

@[simp] theorem timing_pidAlloc : (pidAlloc k).2.timing = k.timing := by
  unfold pidAlloc
  split <;> rfl

@[simp] theorem timing_procInitFrame (entry : Nat) :
    (procInitFrame k pid entry).timing = k.timing := by
  unfold procInitFrame
  split_ifs <;> rfl

@[simp] theorem timing_adoptChild (child : Nat) :
    (adoptChild k self child).timing = k.timing := by
  simp [adoptChild, shareFiles]

@[simp] theorem timing_blockSelf : (blockSelf k self).timing = k.timing := rfl

@[simp] theorem timing_procExit (code : Int) :
    (procExit k self code).timing = k.timing := by
  have hwake : ∀ j : Kernel, (wakeParent j self).timing = j.timing := by
    intro j
    unfold wakeParent
    dsimp only
    split_ifs
    · rfl
    split
    · rfl
    split_ifs <;> simp
  simp [procExit, hwake]

@[simp] theorem timing_procExec (entry : Nat) :
    (procExec k pid entry).2.timing = k.timing := by
  unfold procExec
  split_ifs <;> simp

@[simp] theorem timing_readDone (f : Ref) (n : Int) :
    (readDone k f n).timing = k.timing := by
  unfold readDone
  dsimp only
  split_ifs <;> rfl

@[simp] theorem timing_writeDone (f : Ref) (n : Int) :
    (writeDone k f n).timing = k.timing := by
  unfold writeDone
  dsimp only
  split_ifs <;> rfl

theorem timing_procCreate (priority : Nat) :
    (procCreate k priority).2.timing = k.timing := by
  have halloc := timing_pidAlloc k
  unfold procCreate
  split
  · rename_i k₁ heq
    rw [heq] at halloc
    exact halloc
  · rename_i pid k₁ heq
    rw [heq] at halloc
    split_ifs
    · simpa using halloc
    split <;> simpa using halloc

theorem timing_procDestroy {k' : Kernel} (hdestroy : procDestroy k pid = some k') :
    k'.timing = k.timing := by
  unfold procDestroy at hdestroy
  split_ifs at hdestroy
  rw [← Option.some.inj hdestroy]
  simp

theorem timing_procFork {entry : Nat} {result : Option Nat × Kernel}
    (hfork : procFork k self entry = some result) :
    result.2.timing = k.timing := by
  have hcreate := timing_procCreate k (k.procs self).priority
  unfold procFork at hfork
  split at hfork
  · rename_i k₁ heq
    rw [heq] at hcreate
    rw [← Option.some.inj hfork]
    exact hcreate
  · rename_i child k₁ heq
    rw [heq] at hcreate
    obtain ⟨k₂, hready, rfl⟩ := Option.map_eq_some_iff.mp hfork
    obtain ⟨-, rfl⟩ := procSetReady_eq_some hready
    simpa using hcreate

@[simp] theorem timing_pipeDone (isWrite : Bool) (f : Ref) (n : Int) :
    (pipeDone isWrite k f n).timing = k.timing := by
  cases isWrite
  · exact timing_readDone k f n
  · exact timing_writeDone k f n

variable {k self}

theorem PipeMoves.timing {cause : Cause} {k₀ : Kernel} {f p : Ref}
    {isWrite : Bool} {len : Nat} {segment : PipeExit × PipeCall}
    (hmoves : PipeMoves k cause k₀ f p isWrite len segment) :
    (pipeMoved k₀ p segment.2).timing = k.timing := by
  have hseek : k₀.timing = k.timing := by
    cases hmoves <;> rfl
  rw [← hseek]
  exact timing_wakeAll _ _

theorem Served.timing {cause : Cause} {outcome : Outcome} {k' : Kernel}
    (hserved : Served self k cause outcome k') : k'.timing = k.timing := by
  cases hserved with
  | returns => rfl
  | reads => simp
  | takes _ f _ n => exact timing_readDone _ f n
  | awaitsKey => rfl
  | stores => simp
  | prints => simp
  | moves hmoves => rw [timing_pipeDone, hmoves.timing]
  | awaitsPipe hmoves => exact hmoves.timing
  | sleeps => rfl
  | exits => simp
  | forks _ hfork => exact timing_procFork k self hfork
  | execs => simp
  | opensNot => rfl
  | opensFull => simp
  | opens => simp
  | closes => simp
  | pipes _ _ htable => simp [htable]
  | dups _ _ _ hclose => simp [← hclose]
  | reaps _ _ _ hdestroy => exact timing_procDestroy k _ hdestroy
  | waits => rfl

/-- Only the timer sets the tick flag and advances the clock. -/
theorem timing_handler {event : Event} {outcome : Outcome} {k' : Kernel}
    (hhandler : k.handler event = some (outcome, k')) :
    (event ≠ .timer ∧ k'.timing = k.timing) ∨
    (event = .timer ∧ outcome = .ret 0 .none ∧ k'.timing =
      (k.schedEnabled, true, MachineInt.u32 (k.tickCount + 1))) := by
  obtain ⟨self, -, hhandles⟩ := handler_handles hhandler
  cases hhandles with
  | timer => exact .inr ⟨rfl, rfl, timing_tickScan _ _⟩
  | key => exact .inl ⟨nofun, timing_wakeAll _ _⟩
  | call _ hcall => exact .inl ⟨nofun, (syscallDispatch_served hcall).timing⟩
  | @resume _ cont _ _ _ hcall =>
      refine .inl ⟨nofun, (resumeCall_served hcall).timing.trans ?_⟩
      cases cont <;> rfl

/-- Only the timer sets the tick flag. -/
theorem flags_handler {event : Event} {outcome : Outcome} {k' : Kernel}
    (hhandler : k.handler event = some (outcome, k')) :
    k'.flags = k.flags ∨ (event = .timer ∧ outcome = .ret 0 .none ∧
      k'.flags = (k.schedEnabled, true)) := by
  rcases timing_handler hhandler with ⟨-, hsame⟩ | ⟨hevent, hret, htick⟩
  · exact .inl (congrArg (fun timing => (timing.1, timing.2.1)) hsame)
  · exact .inr ⟨hevent, hret,
      congrArg (fun timing => (timing.1, timing.2.1)) htick⟩

theorem handler_enabled {event : Event} {outcome : Outcome} {k' : Kernel}
    (hhandler : k.handler event = some (outcome, k')) :
    k'.schedEnabled = k.schedEnabled := by
  rcases flags_handler hhandler with hsame | ⟨-, -, htick⟩
  · exact congrArg Prod.fst hsame
  · exact congrArg Prod.fst htick

end Timing

/-- The current process is RUNNING, and not on its way back from
`proc_exit`. -/
def CurrentRuns (k : Kernel) : Prop :=
  ∃ cur, k.currentProc = some cur ∧ k.state cur = .running ∧
    k.resume ≠ some .exit

/-- A process that gives up the processor finds another one to take it. -/
def handsOver (k : Kernel) (event : Event) : Bool :=
  match k.currentProc, k.handler event with
  | some self, some (.yield _, k₁) => !(rivals k₁ self).isEmpty
  | _, _ => true

/-- The scheduler is on and the current process is RUNNING. -/
structure Busy (k : Kernel) : Prop extends Asleep k where
  enabled : k.schedEnabled = true
  running : ∃ cur, k.currentProc = some cur ∧ k.state cur = .running

section Steps

variable {k k₁ k' : Kernel} {event : Event} {self : Nat}

theorem Busy.currentRuns (hbusy : Busy k) : CurrentRuns k := by
  obtain ⟨cur, hcurrent, hrunning⟩ := hbusy.running
  refine ⟨cur, hcurrent, hrunning, fun hexit => ?_⟩
  have hcont : k.contOf cur = some .exit := by
    rw [Kernel.contOf, if_pos hcurrent, hexit]
  have hzombie := (hbusy.zombie cur .exit hcont).mpr rfl
  rw [hrunning] at hzombie
  cases hzombie

theorem handler_syscall {call : Syscall} {result : Outcome × Kernel}
    (hcurrent : k.currentProc = some self)
    (hhandler : k.handler (.syscall call) = some result) :
    syscallDispatch k self call = some result := by
  unfold Kernel.handler at hhandler
  rw [hcurrent] at hhandler
  cases hresume : k.resume with
  | none =>
      rw [hresume] at hhandler
      exact hhandler
  | some cont =>
      rw [hresume] at hhandler
      cases hhandler

/-- A call of `sched_switch_esp` by a RUNNING process leaves a RUNNING one. -/
theorem Turn.running {next : Option Nat} (hturn : Turn k next k')
    (hcurrent : k.currentProc = some self)
    (hrunning : k.state self = .running) :
    ∃ cur, k'.currentProc = some cur ∧ k'.state cur = .running := by
  cases next with
  | none =>
      refine ⟨self, hturn.current.trans hcurrent, ?_⟩
      rw [hturn.state]
      exact hrunning
  | some next => exact ⟨next, hturn.current, (hturn.state next).trans (if_pos rfl)⟩

/-- The process that a yield dispatches. -/
theorem nextProc_schedForceSwitch (hon : k.schedEnabled = true)
    (hcurrent : k.currentProc = some self) :
    nextProc (schedForceSwitch k) = (rivals k self).argmin k.priority := by
  have hsame := schedForceSwitch_undisturbed k
  obtain ⟨htick, hslice⟩ := schedForceSwitch_expired hcurrent
  rw [nextProc, if_pos ⟨hsame.enabled.trans hon, htick⟩, hsame.current, hcurrent,
    Option.bind_some, hslice, if_neg (by decide), hsame.rivals_eq,
    hsame.priority_eq]

theorem schedYield_turn (hon : k.schedEnabled = true)
    (hcurrent : k.currentProc = some self) (cont : Cont) :
    Turn k ((rivals k self).argmin k.priority) (schedYield k cont) := by
  have hturn := schedSwitchEsp_turn (schedForceSwitch k) (.kernel cont)
  rw [nextProc_schedForceSwitch hon hcurrent] at hturn
  exact Turn.of_undisturbed (schedForceSwitch_undisturbed k) hturn

theorem step_busy (hbusy : Busy k) (hguard : handsOver k event = true)
    (hstep : k.step event = some k') : Busy k' := by
  have hasleep := step_asleep hbusy.toAsleep hstep
  obtain ⟨outcome, k₁, hhandler, rfl⟩ := step_eq_some hstep
  obtain ⟨self, hcurrent, hrunning⟩ := hbusy.running
  have hseg := handler_segmented hbusy.toSound hcurrent hhandler
  have hon := (handler_enabled hhandler).trans hbusy.enabled
  cases outcome with
  | ret value reply =>
      have hturn := schedSwitchEsp_turn k₁ .user
      refine ⟨hasleep, hturn.enabled.trans hon,
        hturn.running hseg.current ?_⟩
      rcases hseg.after with hsame | ⟨hstopped, -⟩
      · exact hsame.trans hrunning
      · exact absurd hrunning hstopped
  | yield cont =>
      have hturn := schedYield_turn hon hseg.current cont
      refine ⟨hasleep, hturn.enabled.trans hon, ?_⟩
      cases hpick : (rivals k₁ self).argmin k₁.priority with
      | none =>
          simp [handsOver, hcurrent, hhandler, List.argmin_eq_none.mp hpick]
            at hguard
      | some next =>
          rw [hpick] at hturn
          exact ⟨next, hturn.current, (hturn.state next).trans (if_pos rfl)⟩

theorem step_keeps_processor (hbusy : Busy k)
    (hguard : handsOver k event = false) (hstep : k.step event = some k') :
    ¬ CurrentRuns k' := by
  obtain ⟨outcome, k₁, hhandler, rfl⟩ := step_eq_some hstep
  obtain ⟨self, hcurrent, -⟩ := hbusy.running
  have hseg := handler_segmented hbusy.toSound hcurrent hhandler
  have hon := (handler_enabled hhandler).trans hbusy.enabled
  unfold handsOver at hguard
  rw [hcurrent, hhandler] at hguard
  cases outcome with
  | ret value reply => cases hguard
  | yield cont =>
      have hnone : rivals k₁ self = [] := by simpa using hguard
      have hturn := schedYield_turn hon hseg.current cont
      rw [hnone, List.argmin_nil] at hturn
      rintro ⟨cur, hcur, hrunning, -⟩
      obtain rfl := Option.some.inj
        ((hturn.current.trans hseg.current).symm.trans hcur)
      have hstate : (schedYield k₁ cont).state self =
          if cont = .exit then .zombie else .blocked :=
        (hturn.state self).trans hseg.after
      have hclash := hstate.symm.trans hrunning
      split_ifs at hclash

end Steps

theorem boot_busy {refuses : Nat → Bool} {idleEntry : Nat} {k : Kernel}
    (hboot : boot refuses idleEntry = some k) : Busy k := by
  obtain ⟨idle, hboots⟩ := boot_boots hboot
  exact ⟨boot_asleep hboot, hboots.enabled, idle, hboots.current,
    hboots.running⟩

/-- In a run the current process is RUNNING after every segment, and
`proc_exit` never returns, exactly if every process that sleeps or exits finds
another READY one. -/
theorem currentRuns_run_iff (refuses : Nat → Bool) (idleEntry : Nat)
    (events : List Event) (booted k : Kernel)
    (hboot : boot refuses idleEntry = some booted)
    (hrun : Machine.exec Kernel.step booted events = some k) :
    Machine.exec (Machine.guarded handsOver Kernel.step) booted events =
      some k ↔
    ∀ past rest mid, events = past ++ rest →
      Machine.exec Kernel.step booted past = some mid → CurrentRuns mid := by
  exact Machine.exec_guarded_iff (fun _ => Busy.currentRuns)
    (fun _ _ _ => step_busy) (fun _ _ _ => step_keeps_processor)
    (boot_busy hboot) hrun

namespace ProcessorWitness

/-- Process 1 forks process 2 and sleeps. -/
def sleeps : List Event :=
  [.syscall (.fork 0x2000), .syscall (.sleep 5)]

theorem handed_over : ∃ booted k : Kernel,
    boot (fun _ => false) 0x1000 = some booted ∧
      Machine.exec Kernel.step booted sleeps = some k ∧
      k.currentProc = some 2 ∧ CurrentRuns k := by
  have hview : ((boot (fun _ => false) 0x1000).bind fun booted =>
      (Machine.exec (Machine.guarded handsOver Kernel.step) booted
        sleeps).map Kernel.currentProc) = some (some 2) := by decide +kernel
  obtain ⟨booted, hboot, hrest⟩ := Option.bind_eq_some_iff.mp hview
  obtain ⟨k, hguarded, hcurrent⟩ := Option.map_eq_some_iff.mp hrest
  have hrun := Machine.exec_of_guarded hguarded
  refine ⟨booted, k, hboot, hrun, hcurrent, ?_⟩
  exact (currentRuns_run_iff _ _ _ booted k hboot hrun).mp hguarded sleeps []
    k (List.append_nil _).symm hrun

/-- The only process exits: nobody else is READY, so `proc_exit` returns to
the ZOMBIE, which goes on and even gets its pid. -/
theorem zombie_goes_on :
    ((boot (fun _ => false) 0x1000).bind fun booted =>
      (Machine.exec Kernel.step booted [.syscall (.exit 0)]).map fun k =>
        (k.currentProc, k.state 1, k.resume)) =
      some (some 1, .zombie, some .exit) ∧
    ((boot (fun _ => false) 0x1000).bind fun booted =>
      (Machine.exec Kernel.step booted [.syscall (.exit 0),
        .resume fun _ => 0, .syscall .getpid]).map fun k =>
        (k.currentProc, k.state 1, k.resume)) =
      some (some 1, .zombie, none) := by
  constructor <;> decide +kernel

end ProcessorWitness

end Orion
