/-
The yield call.  `sys_yield` returns without asking for a switch, so the
`sched_switch_esp` behind it finds the flags as the last segment left them:
with the tick flag cleared.
-/
import Orion.Processor

namespace Orion

/-- The caller has given up the processor to another process. -/
structure GaveUp (caller : Nat) (k : Kernel) : Prop where
  current : k.currentProc ≠ some caller
  ready : k.state caller = .ready
  queued : caller ∈ k.readyQueue

/-- The scheduler is on and no tick is pending. -/
structure Settled (k : Kernel) : Prop where
  enabled : k.schedEnabled = true
  flag : k.tickFlag = false

section Flags

variable {k k' : Kernel} {event : Event}

theorem schedSwitchEsp_settled (hon : k.schedEnabled = true) (esp : Frame) :
    Settled (schedSwitchEsp k esp) := by
  unfold schedSwitchEsp
  split_ifs with hoff
  · refine ⟨hon, ?_⟩
    simpa [hon] using hoff
  dsimp only
  split
  · exact ⟨hon, rfl⟩
  unfold schedExpire
  split_ifs
  · exact ⟨hon, rfl⟩
  split <;> exact ⟨hon, rfl⟩

theorem schedForceSwitch_enabled (k : Kernel) :
    (schedForceSwitch k).schedEnabled = k.schedEnabled := by
  unfold schedForceSwitch
  dsimp only
  split <;> rfl

/-- Every segment ends in `sched_switch_esp`, which clears the flag. -/
theorem step_settled (hon : k.schedEnabled = true)
    (hstep : k.step event = some k') : Settled k' := by
  obtain ⟨outcome, k₁, hhandler, rfl⟩ := step_eq_some hstep
  have hon₁ := (handler_enabled hhandler).trans hon
  cases outcome with
  | ret value reply => exact schedSwitchEsp_settled hon₁ .user
  | yield cont =>
      exact schedSwitchEsp_settled ((schedForceSwitch_enabled k₁).trans hon₁) _

/-- After a segment the flag is down, whatever it was at the start. -/
theorem run_settled {events : List Event} (hne : events ≠ [])
    (hon : k.schedEnabled = true)
    (hrun : Machine.exec Kernel.step k events = some k') : Settled k' := by
  obtain ⟨event, rest, rfl⟩ := List.exists_cons_of_ne_nil hne
  obtain ⟨mid, hstep, hrest⟩ := (Machine.exec_cons_eq_some _).mp hrun
  exact Machine.exec_invariant
    (fun _ _ _ hsettled => step_settled hsettled.enabled)
    (step_settled hon hstep) hrest

/-- A `SYS_YIELD` without a pending tick changes nothing. -/
theorem step_yield_settled {self : Nat} (hsettled : Settled k)
    (hcurrent : k.currentProc = some self) (huser : k.resume = none) :
    ∃ k', k.step (.syscall .yield) = some k' ∧ k'.currentProc = some self := by
  refine ⟨schedSwitchEsp k .user, ?_, ?_⟩
  · unfold Kernel.step
    rw [hcurrent, huser]
    rfl
  · have hnone : nextProc k = none := by
      rw [nextProc, if_neg]
      simp [hsettled.flag]
    have hturn := schedSwitchEsp_turn k .user
    rw [hnone] at hturn
    exact hturn.current.trans hcurrent

end Flags

/-- The scheduler starts with one process. -/
theorem boot_single {refuses : Nat → Bool} {idleEntry : Nat} {k : Kernel}
    (hboot : boot refuses idleEntry = some k) (pid : Nat) :
    k.state pid ≠ .ready := by
  obtain ⟨idle, hboots⟩ := boot_boots hboot
  rcases hboots.state_cases pid with ⟨-, hstate⟩ | hstate <;>
    rw [hstate] <;> decide

/-- In no state of the kernel with another READY process does `SYS_YIELD` give up
the processor.  A tick before `sched_start` may have left the flag set. -/
theorem sysYield_never_gives_up (refuses : Nat → Bool) (idleEntry : Nat)
    (early : Bool) (events : List Event) (booted k : Kernel) (self other : Nat)
    (hboot : boot refuses idleEntry = some booted)
    (hrun : Machine.exec Kernel.step { booted with tickFlag := early } events =
      some k)
    (hcurrent : k.currentProc = some self) (hrunning : k.state self = .running)
    (huser : k.resume = none) (hready : k.state other = .ready) :
    ∃ k', k.step (.syscall .yield) = some k' ∧ ¬ GaveUp self k' := by
  have hon : booted.schedEnabled = true := (boot_busy hboot).enabled
  have hsteps : events ≠ [] := by
    rintro rfl
    obtain rfl := Option.some.inj hrun
    exact boot_single hboot other hready
  have hsettled := @run_settled { booted with tickFlag := early } k events
    hsteps hon hrun
  obtain ⟨k', hstep, hsame⟩ := step_yield_settled hsettled hcurrent huser
  exact ⟨k', hstep, fun hgave => hgave.current hsame⟩

namespace YieldCallWitness

/-- Process 1 forks process 2, which is READY then. -/
def forked : Option Kernel :=
  (boot (fun _ => false) 0x1000).bind fun booted =>
    Machine.exec Kernel.step { booted with tickFlag := true }
      [.syscall (.fork 0x2000)]

theorem forked_view : forked.map (fun k =>
    (k.currentProc, k.state 1, k.resume, k.state 2)) =
      some (some 1, .running, none, .ready) := by
  decide +kernel

theorem fork_then_yield : ∃ k k', forked = some k ∧
    k.step (.syscall .yield) = some k' ∧ ¬ GaveUp 1 k' := by
  obtain ⟨k, hforked, hview⟩ := Option.map_eq_some_iff.mp forked_view
  simp only [Prod.mk.injEq] at hview
  obtain ⟨hcurrent, hrunning, huser, hready⟩ := hview
  obtain ⟨booted, hboot, hrun⟩ := Option.bind_eq_some_iff.mp hforked
  obtain ⟨k', hstep, hkept⟩ := sysYield_never_gives_up _ _ true _ booted k 1 2
    hboot hrun hcurrent hrunning huser hready
  exact ⟨k, k', hforked, hstep, hkept⟩

/-- The caller goes on although process 2 is READY. -/
theorem yield_keeps_processor :
    ((forked.bind fun k => k.step (.syscall .yield)).map fun k =>
      (k.currentProc, k.state 1, k.state 2)) =
        some (some 1, .running, .ready) := by
  decide +kernel

end YieldCallWitness

end Orion
