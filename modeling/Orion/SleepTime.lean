/-
How long a process sleeps.  `proc_sleep` stores the sum of the clock and the
number of ticks, `sched_tick` compares it with the clock, and both are 32-bit
numbers; zero stands for no deadline.
-/
import Orion.Processor

namespace Orion

open MachineInt

/-- The process and the clock are as they were. -/
structure LeavesAlone (pid : Nat) (k k' : Kernel) : Prop where
  clock : k'.tickCount = k.tickCount
  state : k'.state pid = k.state pid
  deadline : (k'.procs pid).wakeupTick = (k.procs pid).wakeupTick

/-- A time with a number of timer ticks in which nothing but `sched_tick` touches
the process. -/
inductive TimePasses (pid : Nat) (k : Kernel) : Nat → Kernel → Prop where
  | start : TimePasses pid k 0 k
  | tick {ticks : Nat} {k' : Kernel} (hpasses : TimePasses pid k ticks k') :
      TimePasses pid k (ticks + 1) (timerHandler k')
  | other {ticks : Nat} {k' k'' : Kernel} (hpasses : TimePasses pid k ticks k')
      (halone : LeavesAlone pid k' k'') : TimePasses pid k ticks k''

/-- The deadline is up at the given clock. -/
def due (deadline now : Nat) : Prop := deadline ≠ 0 ∧ deadline ≤ now

section Scans

variable {k : Kernel} {pid other : Nat}

theorem procs_schedAdd (k : Kernel) (pid : Nat) :
    (schedAdd k pid).procs = k.procs := by
  unfold schedAdd
  split_ifs <;> rfl

theorem procs_procWake_of_ne (hne : pid ≠ other) :
    (procWake k other).procs pid = k.procs pid := by
  unfold procWake
  split_ifs
  · rfl
  · rw [procs_schedAdd]
    exact Function.update_of_ne hne _ _

theorem procWake_ready (hblocked : k.state pid = .blocked) :
    (procWake k pid).state pid = .ready := by
  rw [procWake, if_neg (not_not_intro hblocked), Kernel.state, procs_schedAdd]
  change (Function.update k.procs pid _ pid).state = _
  rw [Function.update_self]

theorem procWake_clock (k : Kernel) (pid : Nat) :
    (procWake k pid).tickCount = k.tickCount :=
  congrArg (·.2.2) (timing_procWake k pid)

/-- The scan leaves alone what is not BLOCKED or not due. -/
theorem tickScan_of_not_due
    (hnot : ¬ (k.state pid = .blocked ∧
      due (k.procs pid).wakeupTick k.tickCount)) (pids : List Nat) :
    (tickScan k pids).procs pid = k.procs pid := by
  induction pids generalizing k with
  | nil => rfl
  | cons first rest ih =>
      rw [tickScan]
      split_ifs with hdue
      · have hne : pid ≠ first := by
          rintro rfl
          exact hnot hdue
        have hsame := procs_procWake_of_ne (k := k) hne
        rw [ih (by rw [Kernel.state, hsame, procWake_clock]; exact hnot), hsame]
      · exact ih hnot

theorem tickScan_of_due (hblocked : k.state pid = .blocked)
    (hdue : due (k.procs pid).wakeupTick k.tickCount) {pids : List Nat}
    (hmem : pid ∈ pids) : (tickScan k pids).state pid = .ready := by
  induction pids generalizing k with
  | nil => cases hmem
  | cons first rest ih =>
      rw [tickScan]
      by_cases hfirst : pid = first
      · subst hfirst
        have hready := procWake_ready hblocked
        have hawake : ¬ ((procWake k pid).state pid = .blocked ∧
            due ((procWake k pid).procs pid).wakeupTick
              (procWake k pid).tickCount) := by
          rw [hready]
          rintro ⟨⟨⟩, -⟩
        rw [if_pos ⟨hblocked, hdue⟩, Kernel.state, tickScan_of_not_due hawake]
        exact hready
      · have hrest := (List.mem_cons.mp hmem).resolve_left hfirst
        split_ifs
        · have hsame := procs_procWake_of_ne (k := k) hfirst
          refine ih ?_ ?_ hrest
          · rw [Kernel.state, hsame]
            exact hblocked
          · rw [hsame, procWake_clock]
            exact hdue
        · exact ih hblocked hdue hrest

theorem timerHandler_clock (k : Kernel) :
    (timerHandler k).tickCount = u32 (k.tickCount + 1) :=
  congrArg (·.2.2) (timing_tickScan _ _)

/-- A tick wakes the process if it is BLOCKED and due, and leaves it alone
otherwise. -/
theorem timerHandler_sleeper (hpid : pid < maxProcs) :
    (k.state pid = .blocked ∧
        due (k.procs pid).wakeupTick (u32 (k.tickCount + 1)) →
      (timerHandler k).state pid = .ready) ∧
    (¬ (k.state pid = .blocked ∧
        due (k.procs pid).wakeupTick (u32 (k.tickCount + 1))) →
      (timerHandler k).procs pid = k.procs pid) := by
  constructor
  · rintro ⟨hblocked, hdue⟩
    exact @tickScan_of_due { k with
      tickCount := u32 (k.tickCount + 1), tickFlag := true } pid hblocked hdue _
      (List.mem_range.mpr hpid)
  · intro hnot
    exact @tickScan_of_not_due { k with
      tickCount := u32 (k.tickCount + 1), tickFlag := true } pid hnot _

end Scans

/-- A process that has called `proc_sleep`, some ticks later: still BLOCKED with
its deadline, or READY because one of these ticks was not before it. -/
structure Slept (pid start deadline ticks : Nat) (k : Kernel) : Prop where
  clock : k.tickCount = u32 (start + ticks)
  asleep : (∀ j, 1 ≤ j → j ≤ ticks → ¬ due deadline (u32 (start + j))) →
    k.state pid = .blocked ∧ (k.procs pid).wakeupTick = deadline
  awake : (∃ j, 1 ≤ j ∧ j ≤ ticks ∧ due deadline (u32 (start + j))) →
    k.state pid = .ready

section Sleeping

variable {k k' : Kernel} {self pid start deadline ticks n : Nat}

theorem Slept.leavesAlone (hslept : Slept pid start deadline ticks k)
    (halone : LeavesAlone pid k k') : Slept pid start deadline ticks k' where
  clock := halone.clock.trans hslept.clock
  asleep := fun hnot => ⟨halone.state.trans (hslept.asleep hnot).1,
    halone.deadline.trans (hslept.asleep hnot).2⟩
  awake := fun hdue => halone.state.trans (hslept.awake hdue)

theorem Slept.tick (hpid : pid < maxProcs)
    (hslept : Slept pid start deadline ticks k) :
    Slept pid start deadline (ticks + 1) (timerHandler k) := by
  have hnow : u32 (k.tickCount + 1) = u32 (start + (ticks + 1)) := by
    rw [hslept.clock, u32, u32, u32, Nat.mod_add_mod, Nat.add_assoc]
  obtain ⟨hwakes, hkeeps⟩ := timerHandler_sleeper (k := k) hpid
  rw [hnow] at hwakes hkeeps
  refine ⟨(timerHandler_clock k).trans hnow, ?_, ?_⟩
  · intro hnot
    obtain ⟨hblocked, hdeadline⟩ := hslept.asleep fun j hj hle =>
      hnot j hj (Nat.le_succ_of_le hle)
    have hsame := hkeeps fun hdue =>
      hnot (ticks + 1) (Nat.le_add_left ..) (Nat.le_refl _) (hdeadline ▸ hdue.2)
    rw [Kernel.state, hsame]
    exact ⟨hblocked, hdeadline⟩
  · rintro ⟨j, hj, hle, hdue⟩
    by_cases hearlier : ∃ j, 1 ≤ j ∧ j ≤ ticks ∧ due deadline (u32 (start + j))
    · have hready := hslept.awake hearlier
      rw [Kernel.state, hkeeps fun h => by rw [hready] at h; cases h.1]
      exact hready
    · push Not at hearlier
      obtain ⟨hblocked, hdeadline⟩ := hslept.asleep hearlier
      obtain rfl : j = ticks + 1 := by
        by_contra hne
        exact hearlier j hj (by omega) hdue
      exact hwakes ⟨hblocked, hdeadline ▸ hdue⟩

theorem TimePasses.slept (hpid : pid < maxProcs)
    (hstart : Slept pid start deadline 0 k)
    (hpasses : TimePasses pid k ticks k') :
    Slept pid start deadline ticks k' := by
  induction hpasses with
  | start => exact hstart
  | tick _ ih => exact ih.tick hpid
  | other _ halone ih => exact ih.leavesAlone halone

theorem procSleep_blocked (k : Kernel) (self n : Nat) :
    (procSleep k self n).state self = .blocked ∧
      ((procSleep k self n).procs self).wakeupTick =
        u32 (k.tickCount + n) := by
  simp [procSleep, blockSelf, schedRemove, Kernel.state, Kernel.setPcb]

theorem procSleep_slept (hclock : k.tickCount < 2 ^ 32) :
    Slept self k.tickCount (u32 (k.tickCount + n)) 0 (procSleep k self n) := by
  refine ⟨(u32_of_lt hclock).symm, fun _ => procSleep_blocked k self n, ?_⟩
  rintro ⟨j, hj, hle, -⟩
  omega

/-- Ticks alone make such a time. -/
theorem passes_ticks (pid : Nat) (k : Kernel) (ticks : Nat) :
    ∃ k', TimePasses pid k ticks k' := by
  induction ticks with
  | zero => exact ⟨k, .start⟩
  | succ ticks ih =>
      obtain ⟨k', hpasses⟩ := ih
      exact ⟨_, hpasses.tick⟩

/-- The first tick that is not before the deadline is the right one. -/
theorem due_iff_le (hstart : start < 2 ^ 32) (hn : 1 ≤ n) (hn32 : n < 2 ^ 32) :
    (∀ ticks, (∃ j, 1 ≤ j ∧ j ≤ ticks ∧
      due (u32 (start + n)) (u32 (start + j))) ↔ n ≤ ticks) ↔
    start + n < 2 ^ 32 ∨ (start = 2 ^ 32 - 1 ∧ 2 ≤ n) := by
  unfold due u32
  constructor
  · intro hright
    by_contra hwraps
    push Not at hwraps
    by_cases hzero : start + n = 2 ^ 32
    · obtain ⟨j, -, -, hne, -⟩ := (hright n).mpr (Nat.le_refl n)
      omega
    · have hone := (hright 1).mp ⟨1, Nat.le_refl 1, Nat.le_refl 1, by omega,
        by omega⟩
      omega
  · intro hfits ticks
    constructor
    · rintro ⟨j, hj, hle, -, hdue⟩
      omega
    · intro hle
      exact ⟨n, hn, hle, by omega, Nat.le_refl _⟩

theorem TimePasses.state_of_due (hself : self < maxProcs)
    (hclock : k.tickCount < 2 ^ 32)
    (hdue : ∀ ticks, (∃ j, 1 ≤ j ∧ j ≤ ticks ∧
      due (u32 (k.tickCount + n)) (u32 (k.tickCount + j))) ↔ n ≤ ticks)
    (hpasses : TimePasses self (procSleep k self n) ticks k') :
    k'.state self = if ticks < n then .blocked else .ready := by
  have hslept := hpasses.slept hself (procSleep_slept hclock)
  split_ifs with hlt
  · refine (hslept.asleep fun j hj hle hj' => ?_).1
    exact absurd ((hdue ticks).mp ⟨j, hj, hle, hj'⟩) (Nat.not_le.mpr hlt)
  · exact hslept.awake ((hdue ticks).mpr (Nat.le_of_not_lt hlt))

/-- A process that is woken by nothing else sleeps for exactly the ticks it asked
for, exactly if the clock does not wrap before its deadline, or is about to
wrap at the call and the deadline is not zero. -/
theorem procSleep_duration_iff (k : Kernel) (self n : Nat)
    (hself : self < maxProcs) (hclock : k.tickCount < 2 ^ 32) (hn : 1 ≤ n)
    (hn32 : n < 2 ^ 32) :
    (∀ ticks k', TimePasses self (procSleep k self n) ticks k' →
      k'.state self = if ticks < n then .blocked else .ready) ↔
    k.tickCount + n < 2 ^ 32 ∨ (k.tickCount = 2 ^ 32 - 1 ∧ 2 ≤ n) := by
  rw [← due_iff_le hclock hn hn32]
  refine ⟨fun hright ticks => ?_, fun hdue ticks k' hpasses =>
    hpasses.state_of_due hself hclock hdue⟩
  -- a time of ticks alone shows when the process is woken
  obtain ⟨k', hpasses⟩ := passes_ticks self (procSleep k self n) ticks
  have hslept := hpasses.slept hself (procSleep_slept hclock)
  have hstate := hright ticks k' hpasses
  constructor
  · intro hdue
    rw [hslept.awake hdue] at hstate
    split_ifs at hstate with hlt
    exact Nat.le_of_not_lt hlt
  · intro hle
    by_contra hnot
    push Not at hnot
    rw [(hslept.asleep hnot).1, if_neg (Nat.not_lt.mpr hle)] at hstate
    cases hstate

end Sleeping

/-- The timer ticks of an event. -/
def Event.ticks : Event → Nat
  | .timer => 1
  | _ => 0

/-- The timer ticks of a run. -/
def runTicks : List Event → Nat
  | [] => 0
  | event :: events => event.ticks + runTicks events

/-- The kernel before the switch at the end of a segment, as far as the timer is
concerned. -/
def afterTick (k : Kernel) : Event → Kernel
  | .timer => timerHandler k
  | _ => k

/-- In the segment nothing but `sched_tick` touches the process. -/
structure TickOnly (pid : Nat) (k : Kernel) (event : Event) (k' : Kernel) :
    Prop where
  state : k'.state pid = (afterTick k event).state pid
  deadline : (k'.procs pid).wakeupTick =
    ((afterTick k event).procs pid).wakeupTick

section Segments

variable {k k' : Kernel} {event : Event} {pid self : Nat}

theorem deadline_setPcb {pcb : Pcb} {other : Nat}
    (hsame : pcb.wakeupTick = (k.procs other).wakeupTick) (pid : Nat) :
    ((k.setPcb other pcb).procs pid).wakeupTick = (k.procs pid).wakeupTick :=
  forall_setPcb (P := fun pid new =>
    new.wakeupTick = (k.procs pid).wakeupTick) hsame (fun _ _ => rfl) pid

/-- `sched_switch_esp` changes no deadline and not the clock. -/
theorem schedSwitchEsp_deadlines (k : Kernel) (esp : Frame) (pid : Nat) :
    (schedSwitchEsp k esp).tickCount = k.tickCount ∧
      ((schedSwitchEsp k esp).procs pid).wakeupTick =
        (k.procs pid).wakeupTick := by
  unfold schedSwitchEsp
  split_ifs
  · exact ⟨rfl, rfl⟩
  dsimp only
  split
  · exact ⟨rfl, rfl⟩
  rename_i cur _
  unfold schedExpire
  split_ifs
  · refine ⟨rfl, deadline_setPcb ?_ pid⟩
    rfl
  split
  · refine ⟨rfl, (deadline_setPcb ?_ pid).trans (deadline_setPcb ?_ pid)⟩
    all_goals rfl
  · refine ⟨rfl, (deadline_setPcb ?_ pid).trans ((deadline_setPcb ?_ pid).trans
      (deadline_setPcb ?_ pid))⟩
    all_goals rfl

theorem schedYield_deadlines (k : Kernel) (cont : Cont) (pid : Nat) :
    (schedYield k cont).tickCount = k.tickCount ∧
      ((schedYield k cont).procs pid).wakeupTick =
        (k.procs pid).wakeupTick := by
  obtain ⟨hclock, hdeadline⟩ :=
    schedSwitchEsp_deadlines (schedForceSwitch k) (.kernel cont) pid
  refine ⟨hclock.trans ?_, hdeadline.trans ?_⟩
  · unfold schedForceSwitch
    dsimp only
    split <;> rfl
  · unfold schedForceSwitch
    dsimp only
    split
    · rfl
    · refine deadline_setPcb ?_ pid
      rfl

theorem settle_clock (result : Outcome × Kernel) :
    (settle result).tickCount = result.2.tickCount := by
  unfold settle
  split
  · exact (schedSwitchEsp_deadlines result.2 .user 0).1
  · exact (schedYield_deadlines result.2 _ 0).1

/-- A segment of the kernel in which the process is left to the timer. -/
theorem step_passes {ticks : Nat} {k₀ : Kernel}
    (hpasses : TimePasses pid k₀ ticks k)
    (hstep : k.step event = some k') (honly : TickOnly pid k event k') :
    TimePasses pid k₀ (ticks + event.ticks) k' := by
  obtain ⟨outcome, k₁, hhandler, rfl⟩ := step_eq_some hstep
  have hclock := settle_clock (outcome, k₁)
  rcases timing_handler hhandler with ⟨hevent, hsame⟩ | ⟨rfl, -, htick⟩
  · have hafter : afterTick k event = k ∧ event.ticks = 0 := by
      cases event with
      | timer => exact absurd rfl hevent
      | _ => exact ⟨rfl, rfl⟩
    obtain ⟨hstate, hdeadline⟩ := honly
    rw [hafter.1] at hstate hdeadline
    rw [hafter.2]
    exact hpasses.other
      ⟨hclock.trans (congrArg (·.2.2) hsame), hstate, hdeadline⟩
  · refine hpasses.tick.other ⟨?_, honly.state, honly.deadline⟩
    rw [hclock, timerHandler_clock]
    exact congrArg (·.2.2) htick

/-- A run of the kernel in which the process is left to the timer. -/
theorem run_passes {ticks : Nat} {k₀ : Kernel} {events : List Event}
    (hpasses : TimePasses pid k₀ ticks k)
    (hrun : Machine.exec Kernel.step k events = some k')
    (honly : ∀ past event rest mid next, events = past ++ event :: rest →
      Machine.exec Kernel.step k past = some mid →
      mid.step event = some next → TickOnly pid mid event next) :
    TimePasses pid k₀ (ticks + runTicks events) k' := by
  induction events generalizing k ticks with
  | nil => exact Option.some.inj hrun ▸ hpasses
  | cons event events ih =>
      obtain ⟨mid, hstep, hrest⟩ := (Machine.exec_cons_eq_some _).mp hrun
      have hmid := step_passes hpasses hstep
        (honly [] event events k mid rfl rfl hstep)
      rw [runTicks, ← Nat.add_assoc]
      refine ih hmid hrest fun past event' rest mid' next hsplit hpast => ?_
      exact honly (event :: past) event' rest mid' next
        (congrArg (event :: ·) hsplit)
        ((Machine.exec_cons_eq_some _).mpr ⟨mid, hstep, hpast⟩)

/-- The switch away from a sleeper does not touch it. -/
theorem step_sleep_passes {n : Nat} (hcurrent : k.currentProc = some self)
    (hon : k.schedEnabled = true) (hn : n ≠ 0)
    (hstep : k.step (.syscall (.sleep n)) = some k') :
    TimePasses self (procSleep k self n) 0 k' := by
  obtain ⟨outcome, k₁, hhandler, rfl⟩ := step_eq_some hstep
  have hresult : sysSleep k self n = (outcome, k₁) :=
    Option.some.inj (handler_syscall hcurrent hhandler)
  rw [sysSleep, if_neg hn] at hresult
  obtain ⟨rfl, rfl⟩ := Prod.mk.inj hresult
  have hturn := schedYield_turn (k := procSleep k self n) hon hcurrent .sleep
  obtain ⟨hclock, hdeadline⟩ :=
    schedYield_deadlines (procSleep k self n) .sleep self
  refine TimePasses.start.other ⟨hclock, (hturn.state self).trans ?_, hdeadline⟩
  have hother : (rivals (procSleep k self n) self).argmin
      (procSleep k self n).priority ≠ some self := by
    intro hpick
    exact (mem_rivals.mp (List.argmin_mem hpick)).2 rfl
  rw [if_neg hother, (procSleep_blocked k self n).1, if_neg]
  rintro ⟨-, -, ⟨⟩⟩

/-- A process sleeps for the ticks it asked for in every run of the kernel that
leaves it to the timer, if the clock does not wrap before the deadline. -/
theorem sleep_run_duration {n : Nat} {asleep : Kernel} {events : List Event}
    (hself : self < maxProcs) (hcurrent : k.currentProc = some self)
    (hon : k.schedEnabled = true) (hn : 1 ≤ n)
    (hfits : k.tickCount + n < 2 ^ 32)
    (hstep : k.step (.syscall (.sleep n)) = some asleep)
    (hrun : Machine.exec Kernel.step asleep events = some k')
    (honly : ∀ past event rest mid next, events = past ++ event :: rest →
      Machine.exec Kernel.step asleep past = some mid →
      mid.step event = some next → TickOnly self mid event next) :
    k'.state self =
      if runTicks events < n then .blocked else .ready := by
  have hstart := step_sleep_passes hcurrent hon (Nat.one_le_iff_ne_zero.mp hn)
    hstep
  have hpasses := run_passes hstart hrun honly
  rw [Nat.zero_add] at hpasses
  refine hpasses.state_of_due hself (by omega) ?_
  exact (due_iff_le (by omega) hn (by omega)).mpr (.inl hfits)

end Segments

namespace SleepTimeWitness

/-- The idle process, with the clock at the given tick. -/
def idleAt (clock : Nat) : Option Kernel :=
  (boot (fun _ => false) 0x1000).map fun k => { k with tickCount := clock }

theorem five_ticks : ∃ k, idleAt 0 = some k ∧ k.tickCount = 0 ∧
    ∀ ticks k', TimePasses 1 (procSleep k 1 5) ticks k' →
      k'.state 1 = if ticks < 5 then .blocked else .ready := by
  have hview : (idleAt 0).map Kernel.tickCount = some 0 := by decide +kernel
  obtain ⟨k, hk, hclock⟩ := Option.map_eq_some_iff.mp hview
  refine ⟨k, hk, hclock, ?_⟩
  refine (procSleep_duration_iff k 1 5 (by decide) ?_ (by decide)
    (by decide)).mpr (.inl ?_)
  all_goals
    rw [hclock]
    decide

/-- Ten ticks before the clock wraps, a sleep of twenty ticks ends with the
first one. -/
theorem wrapped_deadline : ∃ k k', idleAt 0xFFFFFFF6 = some k ∧
    TimePasses 1 (procSleep k 1 20) 1 k' ∧ k'.state 1 = .ready := by
  have hview : ((idleAt 0xFFFFFFF6).map fun k =>
      (timerHandler (procSleep k 1 20)).state 1) = some .ready := by
    decide +kernel
  obtain ⟨k, hk, hready⟩ := Option.map_eq_some_iff.mp hview
  exact ⟨k, _, hk, TimePasses.start.tick, hready⟩

end SleepTimeWitness

end Orion
