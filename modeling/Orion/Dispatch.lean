/-
Which process `sched_switch_esp` dispatches.  The scan of the ready queue is a
minimum search, so a call is described by the processes it can choose from
and by what it does to the states of two of them.
-/
import Orion.Segments
import Mathlib.Data.List.MinMax

namespace Orion

/-- The priority number of a process; a low number is a high priority. -/
def Kernel.priority (k : Kernel) (pid : Nat) : Nat := (k.procs pid).priority

/-- READY, or RUNNING on the processor. -/
def Kernel.runnable (k : Kernel) (pid : Nat) : Bool :=
  k.state pid == .ready ||
    (k.currentProc == some pid && k.state pid == .running)

/-- The runnable processes of the queue.  The scan starts from the priority
255, so that only lower numbers count. -/
def contenders (k : Kernel) : List Nat :=
  k.readyQueue.filter fun pid => k.runnable pid && decide (k.priority pid < 255)

/-- Those that can be chosen in the place of `cur`. -/
def rivals (k : Kernel) (cur : Nat) : List Nat :=
  (contenders k).filter fun pid => pid != cur

/-- The process that a call of `sched_switch_esp` dispatches. -/
def nextProc (k : Kernel) : Option Nat :=
  if k.schedEnabled ∧ k.tickFlag then
    k.currentProc.bind fun cur =>
      if 1 < (k.procs cur).timeslice then none
      else (rivals k cur).argmin k.priority
  else none

theorem runnable_iff {k : Kernel} {pid : Nat} :
    k.runnable pid = true ↔ k.state pid = .ready ∨
      (k.currentProc = some pid ∧ k.state pid = .running) := by
  simp [Kernel.runnable]

theorem mem_rivals {k : Kernel} {cur pid : Nat} :
    pid ∈ rivals k cur ↔ pid ∈ contenders k ∧ pid ≠ cur := by
  simp [rivals]

theorem mem_contenders {k : Kernel} {pid : Nat} :
    pid ∈ contenders k ↔ pid ∈ k.readyQueue ∧ k.runnable pid = true ∧
      k.priority pid < 255 := by
  simp [contenders]

section Scan

variable (k : Kernel)

/-- Would the scan take this entry as its first choice? -/
def Kernel.eligible (cur pid : Nat) : Bool :=
  pid != cur && (k.state pid == .ready && decide (k.priority pid < 255))

/-- From a leader below 255 on, the scan is the fold that computes a minimum. -/
theorem pickReady_foldl (cur : Nat) (entries : List (Nat × Nat))
    (best : Option (Nat × Nat))
    (hbest : ∀ leader ∈ best, k.priority leader.1 < 255) :
    (pickReady k (some cur) entries best).map Prod.fst =
      ((entries.map Prod.fst).filter (k.eligible cur)).foldl
        (List.argAux fun first second => k.priority first < k.priority second)
        (best.map Prod.fst) := by
  induction entries generalizing best with
  | nil => rfl
  | cons entry rest ih =>
      obtain ⟨pid, idx⟩ := entry
      unfold pickReady
      dsimp only
      by_cases helig : k.eligible cur pid = true
      · have hparts := helig
        simp only [Kernel.eligible, Bool.and_eq_true, bne_iff_ne, ne_eq,
          beq_iff_eq, decide_eq_true_eq] at hparts
        obtain ⟨hne, hready, hlow⟩ := hparts
        have hskip : some pid ≠ some cur := fun h => hne (Option.some.inj h)
        rw [List.map_cons, List.filter_cons_of_pos helig, List.foldl_cons]
        cases best with
        | none =>
            rw [if_pos ⟨hskip, hready, hlow⟩, ih]
            · rfl
            · rintro leader ⟨⟩
              exact hlow
        | some leader =>
            dsimp only
            by_cases hless : k.priority pid < k.priority leader.1
            · rw [if_pos ⟨hskip, hready, hless⟩, ih]
              · simp [List.argAux, hless]
              · rintro first ⟨⟩
                exact hlow
            · rw [if_neg fun h => hless h.2.2, ih _ hbest]
              simp [List.argAux, hless]
      · rw [List.map_cons, List.filter_cons_of_neg helig, if_neg, ih _ hbest]
        rintro ⟨hskip, hready, hlow⟩
        apply helig
        have hlow' : k.priority pid < 255 := by
          cases best with
          | none => exact hlow
          | some leader => exact lt_trans hlow (hbest leader rfl)
        simp only [Kernel.eligible, Bool.and_eq_true, bne_iff_ne, ne_eq,
          beq_iff_eq, decide_eq_true_eq]
        exact ⟨fun h => hskip (congrArg some h), hready, hlow'⟩

/-- The scan finds the first process of the best priority. -/
theorem pickReady_argmin {cur : Nat} (hcurrent : k.currentProc = some cur) :
    (pickReady k (some cur) k.readyQueue.zipIdx none).map Prod.fst =
      (rivals k cur).argmin k.priority := by
  have heligible : k.readyQueue.filter (k.eligible cur) = rivals k cur := by
    rw [rivals, contenders, List.filter_filter]
    congr 1
    funext pid
    unfold Kernel.eligible Kernel.runnable
    rw [hcurrent]
    by_cases hsame : pid = cur
    · simp [hsame]
    · have hother : (some cur == some pid) = false := by
        simp [Ne.symm hsame]
      rw [hother, Bool.false_and, Bool.or_false]
  rw [pickReady_foldl k cur _ none (by simp), List.zipIdx_map_fst, heligible]
  rfl

end Scan

/-- A return from `sched_switch_esp` that dispatches `next`, if anybody. -/
structure Turn (k : Kernel) (next : Option Nat) (k' : Kernel) : Prop where
  queue : k'.readyQueue = k.readyQueue
  enabled : k'.schedEnabled = k.schedEnabled
  priority : ∀ pid, k'.priority pid = k.priority pid
  current : k'.currentProc = next.or k.currentProc
  state : ∀ pid, k'.state pid =
    if next = some pid then .running
    else if next ≠ none ∧ k.currentProc = some pid ∧ k.state pid = .running
    then .ready
    else k.state pid

section Turns

variable {k j k' : Kernel}

/-- Nothing that the scheduler looks at has changed. -/
structure Undisturbed (k k' : Kernel) : Prop where
  queue : k'.readyQueue = k.readyQueue
  current : k'.currentProc = k.currentProc
  enabled : k'.schedEnabled = k.schedEnabled
  priority : ∀ pid, k'.priority pid = k.priority pid
  state : ∀ pid, k'.state pid = k.state pid

theorem Undisturbed.contenders_eq (hsame : Undisturbed k k') :
    contenders k' = contenders k := by
  unfold contenders Kernel.runnable
  rw [hsame.queue, hsame.current]
  simp only [hsame.priority, hsame.state]

theorem Undisturbed.rivals_eq (hsame : Undisturbed k k') (cur : Nat) :
    rivals k' cur = rivals k cur := by
  rw [rivals, hsame.contenders_eq, rivals]

theorem Undisturbed.priority_eq (hsame : Undisturbed k k') :
    k'.priority = k.priority := funext hsame.priority

/-- New values for the fields the scheduler does not look at. -/
theorem Undisturbed.setPcb {pid : Nat} {pcb : Pcb}
    (hpriority : pcb.priority = (k.procs pid).priority)
    (hstate : pcb.state = (k.procs pid).state) :
    Undisturbed k (k.setPcb pid pcb) := by
  refine ⟨rfl, rfl, rfl, ?_, ?_⟩
  all_goals
    intro other
    by_cases hother : other = pid
    · subst hother
      simp [Kernel.priority, Kernel.state, Kernel.setPcb, hpriority, hstate]
    · simp [Kernel.priority, Kernel.state, Kernel.setPcb, hother]

theorem Undisturbed.trans (hfirst : Undisturbed k j)
    (hsecond : Undisturbed j k') : Undisturbed k k' where
  queue := hsecond.queue.trans hfirst.queue
  current := hsecond.current.trans hfirst.current
  enabled := hsecond.enabled.trans hfirst.enabled
  priority := fun pid => (hsecond.priority pid).trans (hfirst.priority pid)
  state := fun pid => (hsecond.state pid).trans (hfirst.state pid)

theorem schedForceSwitch_undisturbed (k : Kernel) :
    Undisturbed k (schedForceSwitch k) := by
  have hflag : Undisturbed k { k with tickFlag := true } :=
    ⟨rfl, rfl, rfl, fun _ => rfl, fun _ => rfl⟩
  unfold schedForceSwitch
  dsimp only
  split
  · exact hflag
  · refine hflag.trans ?_
    apply Undisturbed.setPcb <;> rfl

theorem schedForceSwitch_expired {cur : Nat}
    (hcurrent : k.currentProc = some cur) :
    (schedForceSwitch k).tickFlag = true ∧
      ((schedForceSwitch k).procs cur).timeslice = 0 := by
  unfold schedForceSwitch
  dsimp only
  split
  · rename_i hnone
    rw [hcurrent] at hnone
    cases hnone
  · rename_i pid hsame
    obtain rfl := Option.some.inj (hcurrent.symm.trans hsame)
    simp [Kernel.setPcb]

theorem Undisturbed.turn (hsame : Undisturbed k k') : Turn k none k' :=
  ⟨hsame.queue, hsame.enabled, hsame.priority, hsame.current, hsame.state⟩

theorem Turn.of_undisturbed {next : Option Nat} (hsame : Undisturbed k j)
    (hturn : Turn j next k') : Turn k next k' where
  queue := hturn.queue.trans hsame.queue
  enabled := hturn.enabled.trans hsame.enabled
  priority := fun pid => (hturn.priority pid).trans (hsame.priority pid)
  current := hturn.current.trans (by rw [hsame.current])
  state := fun pid => (hturn.state pid).trans
    (by rw [hsame.current, hsame.state])

@[simp] theorem state_saveCurrent (k : Kernel) (cur pid : Nat) (esp : Frame) :
    (saveCurrent k cur esp).state pid =
      if pid = cur ∧ k.state pid = .running then .ready else k.state pid := by
  by_cases hpid : pid = cur
  · subst hpid
    simp [saveCurrent, Kernel.state, Kernel.setPcb]
  · simp [saveCurrent, Kernel.state, Kernel.setPcb, hpid]

@[simp] theorem priority_saveCurrent (k : Kernel) (cur pid : Nat)
    (esp : Frame) : (saveCurrent k cur esp).priority pid = k.priority pid := by
  by_cases hpid : pid = cur
  · subst hpid
    simp [saveCurrent, Kernel.priority, Kernel.setPcb]
  · simp [saveCurrent, Kernel.priority, Kernel.setPcb, hpid]

@[simp] theorem state_activate (k : Kernel) (next idx pid : Nat)
    (esp : Frame) : (activate k next idx esp).state pid =
      if pid = next then .running else k.state pid := by
  by_cases hpid : pid = next
  · subst hpid
    simp [activate, Kernel.state, Kernel.setPcb]
  · simp [activate, Kernel.state, Kernel.setPcb, hpid]

@[simp] theorem priority_activate (k : Kernel) (next idx pid : Nat)
    (esp : Frame) :
    (activate k next idx esp).priority pid = k.priority pid := by
  by_cases hpid : pid = next
  · subst hpid
    simp [activate, Kernel.priority, Kernel.setPcb]
  · simp [activate, Kernel.priority, Kernel.setPcb, hpid]

/-- The processor goes from `cur` to `next`. -/
theorem saveCurrent_activate_turn {cur : Nat} (next idx : Nat) (esp : Frame)
    (hcurrent : k.currentProc = some cur) :
    Turn k (some next) (activate (saveCurrent k cur esp) next idx esp) := by
  refine ⟨rfl, rfl, fun pid => by simp, rfl, ?_⟩
  intro pid
  rw [state_activate, state_saveCurrent, hcurrent]
  simp only [Option.some.injEq, eq_comm (a := pid), ne_eq, reduceCtorEq,
    not_false_eq_true, true_and]

theorem schedExpire_turn {cur : Nat} (esp : Frame)
    (hcurrent : k.currentProc = some cur) :
    Turn k (if 0 < (k.procs cur).timeslice then none
      else (rivals k cur).argmin k.priority) (schedExpire k cur esp) := by
  have hpick := pickReady_argmin k hcurrent
  unfold schedExpire
  split_ifs with hslice
  · exact Undisturbed.turn ⟨rfl, rfl, rfl, fun _ => rfl, fun _ => rfl⟩
  rw [← hpick]
  split
  · rename_i hnone
    rw [hnone]
    apply Undisturbed.turn
    apply Undisturbed.setPcb <;> rfl
  · rename_i next idx hsome
    rw [hsome]
    exact saveCurrent_activate_turn next idx esp hcurrent

/-- What a call of `sched_switch_esp` does. -/
theorem schedSwitchEsp_turn (k : Kernel) (esp : Frame) :
    Turn k (nextProc k) (schedSwitchEsp k esp) := by
  have hstart : Undisturbed k
      { k with resume := esp.cont, tickFlag := false } :=
    ⟨rfl, rfl, rfl, fun _ => rfl, fun _ => rfl⟩
  generalize hnext : nextProc k = next
  unfold nextProc at hnext
  unfold schedSwitchEsp
  by_cases hoff : ¬ k.schedEnabled ∨ ¬ k.tickFlag
  · rw [if_neg (not_and_or.mpr hoff)] at hnext
    rw [if_pos hoff, ← hnext]
    exact Undisturbed.turn ⟨rfl, rfl, rfl, fun _ => rfl, fun _ => rfl⟩
  rw [if_pos (by simpa using hoff)] at hnext
  rw [if_neg hoff]
  dsimp only
  split
  · rename_i hnone
    rw [hnone, Option.bind_none] at hnext
    exact hnext ▸ hstart.turn
  · rename_i cur hcurrent
    rw [hcurrent, Option.bind_some] at hnext
    have hcount : Undisturbed { k with resume := esp.cont, tickFlag := false }
        (countDown { k with resume := esp.cont, tickFlag := false } cur) := by
      apply Undisturbed.setPcb <;> rfl
    have hturn := @schedExpire_turn (countDown
      { k with resume := esp.cont, tickFlag := false } cur) cur esp hcurrent
    have hslice : ((countDown { k with resume := esp.cont, tickFlag := false }
        cur).procs cur).timeslice = (k.procs cur).timeslice - 1 := by
      simp [countDown, Kernel.setPcb]
    rw [hslice, hcount.rivals_eq, hcount.priority_eq, hstart.rivals_eq,
      hstart.priority_eq] at hturn
    simp only [Nat.sub_pos_iff_lt, hnext] at hturn
    exact Turn.of_undisturbed hstart (Turn.of_undisturbed hcount hturn)

end Turns

/-- A switch away from `cur` goes to a process of at most its priority number
exactly if the slice lasts, nobody else can run, or some rival is as good as
`cur`: the scan never compares its choice with the current process. -/
theorem schedSwitchEsp_priority_iff {k : Kernel} {cur : Nat} (esp : Frame)
    (hcurrent : k.currentProc = some cur) (hon : k.schedEnabled = true)
    (htick : k.tickFlag = true) :
    (∀ next, (schedSwitchEsp k esp).currentProc = some next → next ≠ cur →
      k.priority next ≤ k.priority cur) ↔
    1 < (k.procs cur).timeslice ∨ rivals k cur = [] ∨
      ∃ rival ∈ rivals k cur, k.priority rival ≤ k.priority cur := by
  have hnext : nextProc k = if 1 < (k.procs cur).timeslice then none
      else (rivals k cur).argmin k.priority := by
    rw [nextProc, if_pos ⟨hon, htick⟩, hcurrent, Option.bind_some]
  rw [(schedSwitchEsp_turn k esp).current, hnext, hcurrent]
  by_cases hslice : 1 < (k.procs cur).timeslice
  · rw [if_pos hslice]
    refine iff_of_true ?_ (.inl hslice)
    intro next hsame hne
    exact absurd (Option.some.inj hsame).symm hne
  rw [if_neg hslice]
  cases hbest : (rivals k cur).argmin k.priority with
  | none =>
      refine iff_of_true ?_ (.inr (.inl (List.argmin_eq_none.mp hbest)))
      intro next hsame hne
      exact absurd (Option.some.inj hsame).symm hne
  | some best =>
      have hmem : best ∈ rivals k cur := List.argmin_mem hbest
      rw [Option.some_or]
      constructor
      · intro hall
        exact .inr (.inr ⟨best, hmem, hall best rfl (mem_rivals.mp hmem).2⟩)
      · rintro (hlong | hnone | ⟨rival, hrival, hle⟩) next hsame -
        · exact absurd hlong hslice
        · rw [hnone] at hmem
          cases hmem
        · obtain rfl := Option.some.inj hsame
          exact (List.le_of_mem_argmin hrival hbest).trans hle

/-- Create READY processes with the given priorities, as `kernel_main` does
before it starts the scheduler. -/
def populate (k : Kernel) : List Nat → Option Kernel
  | [] => some k
  | priority :: rest =>
      match procCreate k priority with
      | (none, _) => none
      | (some pid, k) =>
          (procSetReady (procInitFrame k pid 1) pid).bind fun k =>
            populate (schedAdd k pid) rest

namespace DispatchWitness

/-- Processes of the given priorities, after `ticks` timer interrupts and the
handler of one more. -/
def expiring (priorities : List Nat) (ticks : Nat) : Option Kernel :=
  (((populate (Kernel.reset (Store.empty fun _ => false)) priorities).bind
    schedStart).bind fun k =>
      Machine.exec Kernel.step k (List.replicate ticks .timer)).map timerHandler

/-- What the scheduler sees of the processes 1 and 2, and what it does. -/
structure Choice where
  current : Option Nat
  running : Bool
  enabled : Bool
  tick : Bool
  next : Option Nat
  first : Nat
  second : Nat
  others : List Nat
  deriving DecidableEq

def choice (k : Kernel) : Choice where
  current := k.currentProc
  running := k.state 1 == .running
  enabled := k.schedEnabled
  tick := k.tickFlag
  next := (schedSwitchEsp k .user).currentProc
  first := k.priority 1
  second := k.priority 2
  others := rivals k 1

/-- The slice of a process of the highest priority ends: the idle process gets
the processor. -/
theorem idle_preempts_realtime :
    ∃ k, expiring [0, procPrioIdle] 17 = some k ∧ k.currentProc = some 1 ∧
      k.state 1 = .running ∧ k.schedEnabled = true ∧ k.tickFlag = true ∧
      (schedSwitchEsp k .user).currentProc = some 2 ∧
      k.priority 1 < k.priority 2 := by
  have hview : (expiring [0, procPrioIdle] 17).map choice =
      some ⟨some 1, true, true, true, some 2, 0, 31, [2]⟩ := by
    decide +kernel
  obtain ⟨k, hk, hvalues⟩ := Option.map_eq_some_iff.mp hview
  simp only [choice, Choice.mk.injEq, beq_iff_eq] at hvalues
  obtain ⟨hcurrent, hrunning, hon, htick, hnext, hfirst, hsecond, -⟩ := hvalues
  refine ⟨k, hk, hcurrent, hrunning, hon, htick, hnext, ?_⟩
  rw [hfirst, hsecond]
  decide

/-- With a second process of the highest priority, that one takes over. -/
theorem equal_takes_over :
    ∃ k, expiring [0, 0, procPrioIdle] 17 = some k ∧
      k.state 1 = .running ∧
      (schedSwitchEsp k .user).currentProc = some 2 ∧
      ∀ next, (schedSwitchEsp k .user).currentProc = some next → next ≠ 1 →
        k.priority next ≤ k.priority 1 := by
  have hview : (expiring [0, 0, procPrioIdle] 17).map choice =
      some ⟨some 1, true, true, true, some 2, 0, 0, [2, 3]⟩ := by
    decide +kernel
  obtain ⟨k, hk, hvalues⟩ := Option.map_eq_some_iff.mp hview
  simp only [choice, Choice.mk.injEq, beq_iff_eq] at hvalues
  obtain ⟨hcurrent, hrunning, hon, htick, hnext, hfirst, hsecond,
    hothers⟩ := hvalues
  refine ⟨k, hk, hrunning, hnext, ?_⟩
  refine (schedSwitchEsp_priority_iff .user hcurrent hon htick).mpr
    (.inr (.inr ⟨2, ?_, ?_⟩))
  · rw [hothers]
    decide
  · rw [hfirst, hsecond]

end DispatchWitness

end Orion
