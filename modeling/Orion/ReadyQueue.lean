/-
The ready queue holds exactly the READY and the RUNNING processes, each once,
and only the current process is RUNNING.
-/
import Orion.KernelLifecycle
import Mathlib.Order.Interval.Finset.Nat

namespace Orion

open Lifecycle

/-- On the queue or on the processor. -/
def ProcState.Runnable (state : ProcState) : Prop :=
  state = .ready ∨ state = .running

instance (state : ProcState) : Decidable state.Runnable :=
  inferInstanceAs (Decidable (_ ∨ _))

/-- A slot that `pid_alloc` can hand out. -/
def Allocatable (pid : Nat) : Prop := pidInit ≤ pid ∧ pid < maxProcs

structure QueueInv (v : Lifecycle) : Prop where
  nodup : v.queue.Nodup
  mem : ∀ pid, pid ∈ v.queue ↔ (v.state pid).Runnable
  running : ∀ pid, v.state pid = .running → v.current = some pid
  used : ∀ pid, v.state pid ≠ .unused → Allocatable pid
  current : ∀ pid, v.current = some pid → Allocatable pid
  accepted : v.refused = 0

theorem awaken_of_room {v : Lifecycle} {pid : Nat}
    (hroom : Multiset.card v.queue < maxProcs) :
    v.awaken (some pid) =
      { v.become pid .ready with queue := pid ::ₘ v.queue } :=
  if_neg (Nat.not_le.mpr hroom)

namespace QueueInv

variable {v w : Lifecycle} {pid : Nat}

/-- The invariant does not look at exit codes and past changes. -/
theorem congr (hinv : QueueInv v) (hstate : w.state = v.state)
    (hqueue : w.queue = v.queue) (hcurrent : w.current = v.current)
    (hrefused : w.refused = v.refused) : QueueInv w := by
  constructor
  · rw [hqueue]
    exact hinv.nodup
  · rw [hqueue, hstate]
    exact hinv.mem
  · rw [hcurrent, hstate]
    exact hinv.running
  · rw [hstate]
    exact hinv.used
  · rw [hcurrent]
    exact hinv.current
  · rw [hrefused]
    exact hinv.accepted

theorem not_unused_of_mem (hinv : QueueInv v) (hmem : pid ∈ v.queue) :
    v.state pid ≠ .unused := by
  rcases (hinv.mem pid).mp hmem with hready | hrunning
  · rw [hready]
    decide
  · rw [hrunning]
    decide

/-- There is always room for one more process. -/
theorem card_lt (hinv : QueueInv v) : Multiset.card v.queue < maxProcs := by
  have hsub : v.queue.toFinset ⊆ Finset.Ico pidInit maxProcs := by
    intro pid hpid
    have hused := hinv.not_unused_of_mem (Multiset.mem_toFinset.mp hpid)
    exact Finset.mem_Ico.mpr (hinv.used pid hused)
  have hcard := Finset.card_le_card hsub
  rw [Multiset.toFinset_card_of_nodup hinv.nodup, Nat.card_Ico] at hcard
  exact Nat.lt_of_le_of_lt hcard (by decide)

theorem awaken_eq (hinv : QueueInv v) (pid : Nat) :
    (v.awaken (some pid)).queue = pid ::ₘ v.queue ∧
      (v.awaken (some pid)).current = v.current ∧
      (v.awaken (some pid)).refused = v.refused := by
  rw [awaken_of_room hinv.card_lt]
  exact ⟨rfl, rfl, rfl⟩

/-- A process that is not on the queue becomes READY and joins it. -/
theorem enter (hinv : QueueInv v) (hpid : Allocatable pid)
    (hout : ¬ (v.state pid).Runnable) : QueueInv (v.awaken (some pid)) := by
  obtain ⟨hqueue, hcurrent, hrefused⟩ := hinv.awaken_eq pid
  have hstate := awaken_state v pid
  constructor
  · rw [hqueue, Multiset.nodup_cons]
    exact ⟨mt (hinv.mem pid).mp hout, hinv.nodup⟩
  · intro other
    rw [hqueue, hstate, Multiset.mem_cons, hinv.mem other]
    by_cases hsame : other = pid
    · subst other
      simp [ProcState.Runnable]
    · simp [hsame]
  · intro other hrunning
    rw [hstate] at hrunning
    rw [hcurrent]
    by_cases hsame : other = pid
    · subst other
      simp at hrunning
    · rw [Function.update_of_ne hsame] at hrunning
      exact hinv.running other hrunning
  · intro other hused
    by_cases hsame : other = pid
    · exact hsame ▸ hpid
    · rw [hstate, Function.update_of_ne hsame] at hused
      exact hinv.used other hused
  · rw [hcurrent]
    exact hinv.current
  · rw [hrefused]
    exact hinv.accepted

/-- A process takes a state that is not runnable and leaves the queue. -/
theorem leave (hinv : QueueInv v) {state : ProcState}
    (hpid : state ≠ .unused → Allocatable pid) (hout : ¬ state.Runnable)
    (code : Int) : QueueInv ((v.write pid state code).dequeue pid) := by
  constructor
  · exact hinv.nodup.erase pid
  · intro other
    change other ∈ v.queue.erase pid ↔
      (Function.update v.state pid state other).Runnable
    rw [hinv.nodup.mem_erase_iff, hinv.mem other]
    by_cases hsame : other = pid
    · subst other
      simp [hout]
    · simp [hsame]
  · intro other hrunning
    change Function.update v.state pid state other = .running at hrunning
    by_cases hsame : other = pid
    · subst other
      rw [Function.update_self] at hrunning
      exact absurd (.inr hrunning) hout
    · rw [Function.update_of_ne hsame] at hrunning
      exact hinv.running other hrunning
  · intro other hused
    change Function.update v.state pid state other ≠ .unused at hused
    by_cases hsame : other = pid
    · subst other
      rw [Function.update_self] at hused
      exact hpid hused
    · rw [Function.update_of_ne hsame] at hused
      exact hinv.used other hused
  · exact hinv.current
  · exact hinv.accepted

/-- The same for a process that is not on the queue. -/
theorem retag (hinv : QueueInv v) {state : ProcState}
    (hpid : state ≠ .unused → Allocatable pid) (hout : ¬ state.Runnable)
    (hbefore : ¬ (v.state pid).Runnable) (code : Int) :
    QueueInv (v.write pid state code) := by
  have hstays : (v.write pid state code).queue.erase pid = v.queue :=
    Multiset.erase_of_notMem (mt (hinv.mem pid).mp hbefore)
  exact (hinv.leave hpid hout code).congr rfl hstays.symm rfl rfl

/-- READY is left for RUNNING; the current process steps down. -/
theorem dispatch (hinv : QueueInv v) (hready : v.state pid = .ready) :
    QueueInv (v.preempt.takeOver pid) := by
  -- nobody is RUNNING any more, and the same processes are runnable
  have hpreempt : (∀ other, v.preempt.state other ≠ .running) ∧
      (∀ other, (v.preempt.state other).Runnable ↔
        (v.state other).Runnable) ∧
      (∀ other, v.preempt.state other = .unused ↔ v.state other = .unused) ∧
      v.preempt.queue = v.queue ∧ v.preempt.refused = v.refused := by
    unfold preempt
    cases hcurrent : v.current with
    | none =>
        refine ⟨fun other hrunning => ?_, fun _ => Iff.rfl, fun _ => Iff.rfl,
          rfl, rfl⟩
        rw [hinv.running other hrunning] at hcurrent
        cases hcurrent
    | some cur =>
        dsimp only
        split_ifs with hrunning
        · refine ⟨fun other hother => ?_, fun other => ?_, fun other => ?_,
            rfl, rfl⟩
          · change Function.update v.state cur .ready other = .running at hother
            by_cases hsame : other = cur
            · subst other
              simp at hother
            · rw [Function.update_of_ne hsame] at hother
              rw [hinv.running other hother] at hcurrent
              exact hsame (Option.some.inj hcurrent)
          · change (Function.update v.state cur .ready other).Runnable ↔ _
            by_cases hsame : other = cur
            · subst other
              simp [ProcState.Runnable, hrunning]
            · rw [Function.update_of_ne hsame]
          · change Function.update v.state cur .ready other = _ ↔ _
            by_cases hsame : other = cur
            · subst other
              simp [hrunning]
            · rw [Function.update_of_ne hsame]
        · refine ⟨fun other hother => ?_, fun _ => Iff.rfl, fun _ => Iff.rfl,
            rfl, rfl⟩
          rw [hinv.running other hother] at hcurrent
          exact hrunning (Option.some.inj hcurrent ▸ hother)
  obtain ⟨hnone, hrunnable, hunused, hqueue, hrefused⟩ := hpreempt
  have hpid : Allocatable pid := hinv.used pid (by rw [hready]; decide)
  constructor
  · exact hqueue ▸ hinv.nodup
  · intro other
    change other ∈ v.preempt.queue ↔
      (Function.update v.preempt.state pid .running other).Runnable
    rw [hqueue, hinv.mem other]
    by_cases hsame : other = pid
    · subst other
      simp [ProcState.Runnable, hready]
    · rw [Function.update_of_ne hsame, hrunnable other]
  · intro other hother
    change Function.update v.preempt.state pid .running other = .running at hother
    by_cases hsame : other = pid
    · exact congrArg some hsame.symm
    · rw [Function.update_of_ne hsame] at hother
      exact absurd hother (hnone other)
  · intro other hused
    change Function.update v.preempt.state pid .running other ≠ .unused at hused
    by_cases hsame : other = pid
    · exact hsame ▸ hpid
    · rw [Function.update_of_ne hsame] at hused
      exact hinv.used other (mt (hunused other).mpr hused)
  · intro other hother
    exact Option.some.inj hother ▸ hpid
  · exact hrefused.trans hinv.accepted

end QueueInv

theorem awaken_dequeue (v : Lifecycle) {pid parent : Nat}
    (hne : parent ≠ pid) (hroom : Multiset.card v.queue < maxProcs) :
    (v.awaken (some parent)).dequeue pid =
      (v.dequeue pid).awaken (some parent) := by
  have hroom' : Multiset.card (v.queue.erase pid) < maxProcs :=
    Nat.lt_of_le_of_lt (Multiset.card_le_card (Multiset.erase_le pid v.queue))
      hroom
  rw [awaken_of_room hroom, @awaken_of_room (v.dequeue pid) parent hroom']
  simp only [dequeue, become, write]
  rw [Multiset.erase_cons_tail _ hne]
  rfl

/-- Every act keeps the queue exact. -/
theorem act_queueInv {v w : Lifecycle} {action : Act} (hinv : QueueInv v)
    (hact : act false v action = some w) : QueueInv w := by
  cases action with
  | create pid =>
      obtain ⟨⟨hunused, hlow, hhigh⟩, ⟨⟩⟩ :=
        Option.ite_none_right_eq_some.mp hact
      apply hinv.retag (fun _ => ⟨hlow, hhigh⟩) (by decide)
      rw [hunused]
      decide
  | launch pid =>
      obtain ⟨hembryo, ⟨⟩⟩ := Option.ite_none_right_eq_some.mp hact
      apply hinv.enter (hinv.used pid _)
      all_goals
        rw [hembryo]
        decide
  | wake pid =>
      obtain ⟨hblocked, ⟨⟩⟩ := Option.ite_none_right_eq_some.mp hact
      apply hinv.enter (hinv.used pid _)
      all_goals
        rw [hblocked]
        decide
  | block pid =>
      obtain ⟨hleave, ⟨⟩⟩ := Option.ite_none_right_eq_some.mp hact
      exact hinv.leave (fun _ => hinv.current pid hleave.1) (by decide) _
  | exit pid code parent =>
      obtain ⟨⟨hleave, hparent⟩, ⟨⟩⟩ := Option.ite_none_right_eq_some.mp hact
      have hgone := @QueueInv.leave _ pid hinv .zombie
        (fun _ => hinv.current pid hleave.1) (by decide) code
      cases parent with
      | none => exact hgone
      | some parent =>
          obtain ⟨hne, hblocked⟩ := hparent parent rfl
          rw [awaken_dequeue (v.write pid .zombie code) hne hinv.card_lt]
          have hstate : ((v.write pid .zombie code).dequeue pid).state parent =
              .blocked := (Function.update_of_ne hne _ _).trans hblocked
          apply hgone.enter (hinv.used parent _)
          · rw [hstate]
            decide
          · rw [hblocked]
            decide
  | exec pid =>
      obtain ⟨⟨hused, -, -⟩, ⟨⟩⟩ := Option.ite_none_right_eq_some.mp hact
      -- leave for BLOCKED and come back: the same states, the same queue
      have hgone := @QueueInv.leave _ pid hinv .blocked
        (fun _ => hinv.used pid hused) (by decide) 0
      have hback := hgone.enter (hinv.used pid hused) (by
        change ¬ (Function.update v.state pid .blocked pid).Runnable
        rw [Function.update_self]
        decide)
      rw [@awaken_of_room (v.dequeue pid) pid hgone.card_lt]
      rw [awaken_of_room hgone.card_lt] at hback
      have hstate : Function.update v.state pid .ready = Function.update
          (Function.update v.state pid .blocked) pid .ready :=
        (Function.update_idem _ _ _).symm
      exact hback.congr hstate rfl rfl rfl
  | destroy pid =>
      obtain ⟨hzombie, ⟨⟩⟩ := Option.ite_none_right_eq_some.mp hact
      apply hinv.retag (fun hunused => absurd rfl hunused) (by decide)
      rw [hzombie]
      decide
  | dispatch pid =>
      obtain ⟨⟨-, hready, -⟩, ⟨⟩⟩ := Option.ite_none_right_eq_some.mp hact
      exact hinv.dispatch hready

theorem Lifecycle.Leads.queueInv {v w : Lifecycle} (hleads : Leads false v w)
    (hinv : QueueInv v) : QueueInv w := by
  obtain ⟨acts, hacts⟩ := hleads
  exact Machine.exec_invariant (fun _ _ _ => act_queueInv) hinv hacts

theorem initial_queueInv : QueueInv Lifecycle.initial := by
  constructor
  · exact Multiset.nodup_zero
  · intro pid
    simp [Lifecycle.initial, ProcState.Runnable]
  · intro pid hrunning
    simp [Lifecycle.initial] at hrunning
  · intro pid hused
    simp [Lifecycle.initial] at hused
  · intro pid hcurrent
    simp [Lifecycle.initial] at hcurrent
  · rfl

/-- Whatever the timer, the keyboard and the processes do, at every return
from `sched_switch_esp` the ready queue is exact: no process is on it twice,
the processes on it are those that are READY or RUNNING, and only the current
process is RUNNING.  The queue is never full, so `sched_add` has never refused
a process. -/
theorem readyQueue_run_exact (refuses : Nat → Bool) (idleEntry : Nat)
    (events : List Event) (booted k : Kernel)
    (hboot : boot refuses idleEntry = some booted)
    (hrun : Machine.exec Kernel.step booted events = some k) :
    k.readyQueue.Nodup ∧
      (∀ pid, pid ∈ k.readyQueue ↔
        k.state pid = .ready ∨ k.state pid = .running) ∧
      (∀ pid, k.state pid = .running → k.currentProc = some pid) ∧
      k.readyQueue.length < maxProcs ∧ k.queueFull = 0 := by
  have hstep : ∀ (k : Kernel) (event : Event) (k' : Kernel),
      QueueInv k.view → k.step event = some k' → QueueInv k'.view := by
    intro k event k' hinv hstep
    exact (step_leads (by simp) hstep).queueInv hinv
  have hbooted : QueueInv booted.view :=
    (boot_leads hboot).queueInv initial_queueInv
  have hinv : QueueInv k.view := Machine.exec_invariant hstep hbooted hrun
  exact ⟨hinv.nodup, hinv.mem, hinv.running, hinv.card_lt, hinv.accepted⟩

namespace ReadyQueueWitness

/-- The first process forks a second one and goes to sleep. -/
def events : List Event :=
  [.syscall (.fork 0x2000), .timer, .syscall (.sleep 5)]

theorem forked_run :
    ((boot (fun _ => false) 0x1000).bind fun booted =>
      (Machine.exec Kernel.step booted events).map fun k =>
        (k.readyQueue, k.currentProc)) = some ([2], some 2) := by
  decide +kernel

theorem forked_run_exact : ∃ booted k : Kernel,
    boot (fun _ => false) 0x1000 = some booted ∧
      Machine.exec Kernel.step booted events = some k ∧
      k.readyQueue = [2] ∧ k.queueFull = 0 := by
  obtain ⟨booted, hboot, hrest⟩ := Option.bind_eq_some_iff.mp forked_run
  obtain ⟨k, hrun, hview⟩ := Option.map_eq_some_iff.mp hrest
  exact ⟨booted, k, hboot, hrun, congrArg Prod.fst hview,
    (readyQueue_run_exact _ _ _ booted k hboot hrun).2.2.2.2⟩

end ReadyQueueWitness

end Orion
