/-
Whom the pipes and the keyboard wake.  They remember a waiter by its pid only.
As long as nobody restarts it with `SYS_EXEC`, a recorded process stays inside
the call in which it has recorded itself; a record that `SYS_EXEC` leaves behind
can wake the process out of any other sleep.
-/
import Orion.PipeWaiters

namespace Orion

/-- The places where a process is remembered as a waiter. -/
inductive Record where
  | pipe (p : Ref) (isWrite : Bool)
  | keyboard
  deriving DecidableEq, Repr

/-- Both ends of a pipe belong together. -/
def Record.sameDevice : Record → Record → Bool
  | .pipe p _, .pipe q _ => p == q
  | .keyboard, .keyboard => true
  | _, _ => false

/-- What `blocked_reader`, `blocked_writer` and `kb_waiter_pid` hold when nobody
waits. -/
def noWaiter : Nat := 0xFFFF

def Kernel.recorded (k : Kernel) : Record → Nat
  | .pipe p isWrite => (k.store.pipes p).waiter isWrite
  | .keyboard => k.keyboard.waiterPid

/-- Where a process that sleeps like this has recorded itself. -/
def Cont.record : Cont → Option Record
  | .pipeRead _ p _ _ => some (.pipe p false)
  | .pipeWrite _ p _ _ => some (.pipe p true)
  | .kbdRead _ _ => some .keyboard
  | _ => none

def Outcome.record : Outcome → Option Record
  | .ret _ _ => none
  | .yield cont => cont.record

/-- The record of the call that a process is inside. -/
def Kernel.insideAt (k : Kernel) (pid : Nat) : Option Record :=
  (k.contOf pid).bind Cont.record

/-- `pipe_wake_peer` or the keyboard handler finds a BLOCKED process in the
slot, clears it and calls `proc_wake`. -/
def WokenAt (k : Kernel) (slot : Record) (k' : Kernel) : Prop :=
  k.recorded slot ≠ noWaiter ∧ k'.recorded slot = noWaiter ∧
    k.state (k.recorded slot) = .blocked

/-- The recorded process is inside `pipe_block` on that very pipe, or inside
`kbd_read`. -/
def InsideOwn (k : Kernel) (slot : Record) : Prop :=
  ∃ place, k.insideAt (k.recorded slot) = some place ∧
    place.sameDevice slot = true

/-- The recorded process sleeps on the other end of that very pipe. -/
def InsideOther (k : Kernel) : Record → Prop
  | .pipe p isWrite =>
      k.insideAt (k.recorded (.pipe p isWrite)) = some (.pipe p !isWrite)
  | .keyboard => False

/-- The kernel, and which records have been left behind by a `SYS_EXEC` on the
recorded process. -/
structure Trail where
  kernel : Kernel
  left : Record → Bool

def Trail.step (t : Trail) (event : Event) : Option Trail :=
  (t.kernel.handler event).map fun result =>
    { kernel := settle result
      left := fun slot =>
        (settle result).recorded slot == t.kernel.recorded slot &&
          result.1.record != some slot &&
          (t.left slot || restarts t.kernel (t.kernel.recorded slot) event) }

/-- The recorded process is inside the call that has recorded it, unless the
record has been left behind. -/
structure Trailed (t : Trail) : Prop extends Waiting t.kernel where
  fresh : ∀ slot, t.left slot = false → t.kernel.recorded slot ≠ noWaiter →
    t.kernel.insideAt (t.kernel.recorded slot) = some slot
  stale : ∀ slot, t.left slot = true →
    t.kernel.insideAt (t.kernel.recorded slot) ≠ some slot

section Steps

variable {k k₁ k' : Kernel} {event : Event} {outcome : Outcome} {self pid : Nat}
  {slot : Record}

theorem Cont.record_eq_some_pipe {cont : Cont} {p : Ref} {isWrite : Bool} :
    cont.record = some (.pipe p isWrite) ↔
      cont.pipeEnd = some (p, isWrite) := by
  cases cont <;> simp [Cont.record, Cont.pipeEnd]

theorem Outcome.record_eq_some_pipe {p : Ref} {isWrite : Bool} :
    outcome.record = some (.pipe p isWrite) ↔
      outcome.pipeEnd = some (p, isWrite) := by
  cases outcome with
  | ret value reply => simp [Outcome.record, Outcome.pipeEnd]
  | yield cont => exact Cont.record_eq_some_pipe

theorem Outcome.record_eq_some_keyboard :
    outcome.record = some .keyboard ↔ outcome.atKeyboard = true := by
  cases outcome with
  | ret value reply => simp [Outcome.record, Outcome.atKeyboard]
  | yield cont =>
      cases cont <;>
        simp [Outcome.record, Outcome.atKeyboard, Cont.record, Cont.atKeyboard]

/-- A step clears records, and at the end the process may record itself. -/
theorem Records.recorded (hrecords : Records self k outcome k')
    (slot : Record) : if outcome.record = some slot
      then k'.recorded slot = self
      else k'.recorded slot = k.recorded slot ∨
        k'.recorded slot = noWaiter := by
  cases slot with
  | pipe p isWrite =>
      have hslot := hrecords.slot p isWrite
      simp only [← Outcome.record_eq_some_pipe] at hslot
      split_ifs at hslot ⊢
      · exact hslot
      · exact hslot.imp_right And.left
  | keyboard =>
      have hkey := hrecords.key
      simp only [← Outcome.record_eq_some_keyboard] at hkey
      split_ifs at hkey ⊢
      · exact hkey
      · exact hkey.imp_right And.left

theorem pipeReadOp_block {call : PipeCall} {len : Nat}
    (hmore : call.moved < len) (hwait : call.pipe.MustWait false) :
    pipeReadOp len call = (.block, call) := by
  unfold pipeReadOp pipeFuel
  rw [pipeReadLoop, if_pos hmore, if_pos hwait.1, if_neg hwait.2]

theorem pipeWriteResume_block {call : PipeCall} (len : Nat) (src : Nat → UInt8)
    (hwait : call.pipe.MustWait true) :
    pipeWriteResume len src call = (.block, call) := by
  rw [pipeWriteResume, if_pos hwait.1, if_neg hwait.2]

/-- While its record is there, a process that is switched back to goes to sleep
again at once. -/
theorem handler_sleeps_again (hwaiting : Waiting k)
    (hcurrent : k.currentProc = some self)
    (hinside : k.insideAt self = some slot)
    (hrecorded : k.recorded slot ≠ noWaiter)
    (hhandler : k.handler event = some (outcome, k₁)) :
    outcome.record = some slot := by
  obtain ⟨cont, hcont, hslot⟩ := Option.bind_eq_some_iff.mp hinside
  have hfit := hwaiting.fit self cont hcont
  rw [Kernel.contOf, if_pos hcurrent] at hcont
  unfold Kernel.handler at hhandler
  rw [hcurrent, hcont] at hhandler
  cases event with
  | resume src =>
      cases cont with
      | pipeRead f p len moved =>
          obtain rfl := Option.some.inj hslot
          have hblock := @pipeReadOp_block
            (PipeCall.enter (k.store.pipes p) moved) len hfit.2
            ((hwaiting.pipe p).reason false hrecorded)
          simp only [resumeCall, pipeReadFrom, pipeSegment, hblock] at hhandler
          obtain ⟨rfl, -⟩ := Prod.mk.inj (Option.some.inj hhandler)
          rfl
      | pipeWrite f p len moved =>
          obtain rfl := Option.some.inj hslot
          have hblock := @pipeWriteResume_block
            (PipeCall.enter (k.store.pipes p) moved) len src
            ((hwaiting.pipe p).reason true hrecorded)
          simp only [resumeCall, pipeWriteFrom, pipeSegment, hblock] at hhandler
          obtain ⟨rfl, -⟩ := Prod.mk.inj (Option.some.inj hhandler)
          rfl
      | kbdRead f len =>
          obtain rfl := Option.some.inj hslot
          have hnone : k.keyboard.hasChar = false := hwaiting.keyboard hrecorded
          simp only [resumeCall, kbdRead, hnone] at hhandler
          obtain ⟨rfl, -⟩ := Prod.mk.inj (Option.some.inj hhandler)
          rfl
      | _ => cases hslot
  | _ => cases hhandler

theorem insideAt_settle_self (hsound : Sound k₁)
    (hcurrent : k₁.currentProc = some self) :
    (settle (outcome, k₁)).insideAt self = outcome.record := by
  rw [Kernel.insideAt, contOf_settle hsound, if_pos hcurrent]
  cases outcome <;> rfl

/-- A `SYS_EXEC` that returns 0 has put a fresh frame on the stack. -/
theorem sysExec_restarts (hsound : Sound k) {raw entry : Nat}
    (houtcome : (sysExec k raw entry).1 = .ret 0 .none) :
    (((sysExec k raw entry).2.procs (raw % 2 ^ 16)).espKernel).cont = none := by
  cases hget : procGet k (raw % 2 ^ 16) with
  | none =>
      rw [sysExec, hget] at houtcome
      cases houtcome
  | some p =>
      obtain ⟨rfl, -, hused⟩ := procGet_eq_some hget
      rw [sysExec, hget] at houtcome ⊢
      dsimp only at houtcome ⊢
      split_ifs at houtcome ⊢ with hentry hdone
      · cases houtcome
      · rcases procExec_restarts k (raw % 2 ^ 16) entry with
          ⟨hrunning, -⟩ | ⟨-, hrestarts⟩
        · rw [procExec, if_pos hrunning] at hdone
          cases hdone
        · obtain ⟨start, hframe⟩ :=
            hrestarts.stack (hsound.framed.kstack _ hused)
          rw [hframe]
          rfl
      · cases houtcome

/-- A process that has been restarted is out of the kernel. -/
theorem restarts_outside (hsound : Sound k)
    (hrestarts : restarts k pid event = true)
    (hhandler : k.handler event = some (outcome, k₁)) :
    (settle (outcome, k₁)).contOf pid = none := by
  obtain ⟨self, hcurrent, hhandles⟩ := handler_handles hhandler
  have hseg := handler_segmented hsound hcurrent hhandler
  rw [contOf_settle hseg.sound, hseg.current]
  unfold restarts at hrestarts
  split at hrestarts
  · rename_i raw entry
    obtain ⟨hpid, houtcome⟩ := Bool.and_eq_true_iff.mp hrestarts
    obtain rfl := beq_iff_eq.mp hpid
    have hexec : sysExec k raw entry = (outcome, k₁) := by
      cases hhandles with
      | call _ hcall => exact Option.some.inj hcall
    have houtside := sysExec_restarts hsound (beq_iff_eq.mp houtcome)
    rw [hexec] at houtside houtcome
    split_ifs
    · rw [show outcome = .ret 0 .none from beq_iff_eq.mp houtcome]
      rfl
    · exact houtside
  · cases hrestarts

theorem trail_step_eq_some {t t' : Trail} (hstep : t.step event = some t') :
    t.kernel.step event = some t'.kernel ∧ ∃ outcome k₁,
      t.kernel.handler event = some (outcome, k₁) ∧
      t'.kernel = settle (outcome, k₁) ∧ ∀ slot, t'.left slot = true ↔
        (t'.kernel.recorded slot = t.kernel.recorded slot ∧
          outcome.record ≠ some slot) ∧
        (t.left slot = true ∨
          restarts t.kernel (t.kernel.recorded slot) event = true) := by
  obtain ⟨⟨outcome, k₁⟩, hhandler, rfl⟩ := Option.map_eq_some_iff.mp hstep
  refine ⟨?_, outcome, k₁, hhandler, rfl, fun slot => ?_⟩
  · rw [step_eq_handler, hhandler]
    rfl
  · simp only [Bool.and_eq_true, Bool.or_eq_true, beq_iff_eq, bne_iff_ne]

theorem trail_step_fresh {t t' : Trail} (htrailed : Trailed t)
    (hstep : t.step event = some t') (slot : Record)
    (hleft : t'.left slot = false)
    (hrecorded : t'.kernel.recorded slot ≠ noWaiter) :
    t'.kernel.insideAt (t'.kernel.recorded slot) = some slot := by
  obtain ⟨hkernel, outcome, k₁, hhandler, hsettle, hleft'⟩ :=
    trail_step_eq_some hstep
  obtain ⟨self, outcome', k₂, hcurrent, hhandler', -, hrecords⟩ :=
    step_records htrailed.toWaiting hkernel
  obtain ⟨rfl, rfl⟩ : outcome = outcome' ∧ k₁ = k₂ :=
    Prod.mk.inj (Option.some.inj (hhandler.symm.trans hhandler'))
  have hseg := handler_segmented htrailed.toSound hcurrent hhandler
  have hslot := hrecords.recorded slot
  split_ifs at hslot with hnow
  · rw [hslot, hsettle, insideAt_settle_self hseg.sound hseg.current]
    exact hnow
  have hsame := hslot.resolve_right hrecorded
  have hkept : ¬ (t.left slot = true ∨
      restarts t.kernel (t.kernel.recorded slot) event = true) := by
    intro h
    rw [(hleft' slot).mpr ⟨⟨hsame, hnow⟩, h⟩] at hleft
    cases hleft
  rw [not_or, Bool.not_eq_true, Bool.not_eq_true] at hkept
  rw [hsame] at hrecorded ⊢
  have hinside := htrailed.fresh slot hkept.1 hrecorded
  by_cases hother : t.kernel.currentProc = some (t.kernel.recorded slot)
  · exact absurd (handler_sleeps_again htrailed.toWaiting hother hinside
      hrecorded hhandler) hnow
  · obtain ⟨cont, hcont, hat⟩ := Option.bind_eq_some_iff.mp hinside
    have hexit : cont ≠ .exit := by
      rintro rfl
      cases hat
    rw [Kernel.insideAt, step_stays htrailed.toAsleep hkernel hother hcont hexit
      hkept.2]
    exact hat

theorem trail_step_stale {t t' : Trail} (htrailed : Trailed t)
    (hstep : t.step event = some t') (slot : Record)
    (hleft : t'.left slot = true) :
    t'.kernel.insideAt (t'.kernel.recorded slot) ≠ some slot := by
  obtain ⟨hkernel, outcome, k₁, hhandler, hsettle, hleft'⟩ :=
    trail_step_eq_some hstep
  obtain ⟨⟨hsame, hnow⟩, hbefore⟩ := (hleft' slot).mp hleft
  rw [hsame]
  intro hinside
  obtain ⟨cont, hcont, hat⟩ := Option.bind_eq_some_iff.mp hinside
  rcases step_inside htrailed.toSound hkernel hcont with
    ⟨-, hcont', -⟩ | ⟨-, k₂, hyield, -⟩
  · rcases hbefore with hstale | hrestarts
    · apply htrailed.stale slot hstale
      rw [Kernel.insideAt, hcont']
      exact hat
    · rw [hsettle, restarts_outside htrailed.toSound hrestarts hhandler] at hcont
      cases hcont
  · rw [hhandler] at hyield
    obtain ⟨rfl, -⟩ := Prod.mk.inj (Option.some.inj hyield)
    exact hnow hat

theorem trail_step_trailed {t t' : Trail} (htrailed : Trailed t)
    (hstep : t.step event = some t') : Trailed t' :=
  ⟨step_waiting htrailed.toWaiting (trail_step_eq_some hstep).1,
    trail_step_fresh htrailed hstep, trail_step_stale htrailed hstep⟩

end Steps

/-- The trail of a run. -/
def Trail.start (booted : Kernel) : Trail := ⟨booted, fun _ => false⟩

section Runs

variable {refuses : Nat → Bool} {idleEntry : Nat} {booted k : Kernel}

theorem boot_trailed (hboot : boot refuses idleEntry = some booted) :
    Trailed (Trail.start booted) := by
  refine ⟨boot_waiting hboot, ?_, fun _ => nofun⟩
  intro slot _ hrecorded
  have hrelays := @boot_relays 0 refuses idleEntry booted hboot
  have hroom : PipeRoom (Store.empty refuses) :=
    ⟨fun _ => Nat.one_pos, fun _ _ => rfl⟩
  refine absurd ?_ hrecorded
  cases slot with
  | pipe p isWrite =>
      have hfresh : Pipe.fresh.waiter isWrite = pipeNoWaiter := by
        cases isWrite <;> rfl
      rcases hrelays.slot hroom p isWrite with hsame | ⟨hnone, -⟩
      · exact hsame.trans hfresh
      · exact hnone
  | keyboard =>
      rcases hrelays.key with hsame | ⟨hnone, -⟩
      · exact hsame
      · exact hnone

/-- Every run has its trail. -/
theorem exec_trail {events : List Event} (t : Trail) :
    Machine.exec Kernel.step t.kernel events = some k ↔
      ∃ left, Machine.exec Trail.step t events = some ⟨k, left⟩ := by
  induction events generalizing t with
  | nil =>
      constructor
      · intro hrun
        obtain rfl := Option.some.inj hrun
        exact ⟨t.left, rfl⟩
      · rintro ⟨left, hrun⟩
        rw [Option.some.inj hrun]
        rfl
  | cons event rest ih =>
      rw [Machine.exec_cons_eq_some]
      constructor
      · rintro ⟨next, hstep, hrest⟩
        rw [step_eq_handler] at hstep
        obtain ⟨result, hhandler, rfl⟩ := Option.map_eq_some_iff.mp hstep
        obtain ⟨left, hrun⟩ := (ih ⟨settle result, _⟩).mp hrest
        refine ⟨left, (Machine.exec_cons_eq_some _).mpr ⟨_, ?_, hrun⟩⟩
        rw [Trail.step, hhandler]
        rfl
      · rintro ⟨left, hrun⟩
        obtain ⟨next, hstep, hrest⟩ := (Machine.exec_cons_eq_some _).mp hrun
        exact ⟨next.kernel, (trail_step_eq_some hstep).1,
          (ih next).mpr ⟨left, hrest⟩⟩

end Runs

theorem insideOther_of_stale {t : Trail} (htrailed : Trailed t) {slot : Record}
    (hleft : t.left slot = true) (hown : InsideOwn t.kernel slot) :
    InsideOther t.kernel slot := by
  obtain ⟨place, hinside, hdevice⟩ := hown
  have hne : place ≠ slot := by
    rintro rfl
    exact htrailed.stale place hleft hinside
  cases slot with
  | pipe p isWrite =>
      cases place with
      | pipe q other =>
          obtain rfl : q = p := beq_iff_eq.mp hdevice
          have hother : other = !isWrite := by
            cases other <;> cases isWrite <;> simp_all
          rw [hother] at hinside
          exact hinside
      | keyboard => cases hdevice
  | keyboard =>
      cases place with
      | pipe q other => cases hdevice
      | keyboard => exact absurd rfl hne

/-- In a run every process that a pipe or the keyboard wakes is inside that
pipe's `pipe_block` or inside `kbd_read`, exactly if no BLOCKED process is woken
through a record that `SYS_EXEC` has left behind, other than one that sleeps
on the opposite end of the same pipe. -/
theorem wakeUps_run_iff (refuses : Nat → Bool) (idleEntry : Nat)
    (events : List Event) (booted : Kernel)
    (hboot : boot refuses idleEntry = some booted) :
    (∀ past event rest k k', events = past ++ event :: rest →
      Machine.exec Kernel.step booted past = some k →
      k.step event = some k' → ∀ slot, WokenAt k slot k' → InsideOwn k slot) ↔
    ∀ past event rest t k', events = past ++ event :: rest →
      Machine.exec Trail.step (Trail.start booted) past = some t →
      t.kernel.step event = some k' → ∀ slot, t.left slot = true →
        WokenAt t.kernel slot k' → InsideOther t.kernel slot := by
  have htrailed : ∀ past t,
      Machine.exec Trail.step (Trail.start booted) past = some t → Trailed t :=
    fun _ _ => Machine.exec_invariant (fun _ _ _ => trail_step_trailed)
      (boot_trailed hboot)
  constructor
  · intro hall past event rest t k' hsplit hrun hstep slot hleft hwoken
    have hkernel := (exec_trail (Trail.start booted)).mpr ⟨t.left, hrun⟩
    exact insideOther_of_stale (htrailed past t hrun) hleft
      (hall past event rest t.kernel k' hsplit hkernel hstep slot hwoken)
  · intro hall past event rest k k' hsplit hrun hstep slot hwoken
    obtain ⟨left, htrail⟩ := (exec_trail (Trail.start booted)).mp hrun
    cases hleft : left slot with
    | false =>
        refine ⟨slot, (htrailed past _ htrail).fresh slot hleft hwoken.1, ?_⟩
        cases slot <;> simp [Record.sameDevice]
    | true =>
        have hother := hall past event rest ⟨k, left⟩ k' hsplit htrail hstep slot
          hleft hwoken
        cases slot with
        | pipe p isWrite => exact ⟨_, hother, beq_self_eq_true p⟩
        | keyboard => cases hother

namespace WakeUpsWitness

open Machine (exec)

/-- Without `SYS_EXEC` nothing is left behind. -/
theorem left_eq_false {events : List Event} {t t' : Trail}
    (hevents : ∀ event ∈ events, ∀ k pid, restarts k pid event = false)
    (hleft : ∀ slot, t.left slot = false)
    (hrun : exec Trail.step t events = some t') (slot : Record) :
    t'.left slot = false := by
  induction events generalizing t with
  | nil =>
      rw [← Option.some.inj hrun]
      exact hleft slot
  | cons event rest ih =>
      obtain ⟨next, hstep, hrest⟩ := (Machine.exec_cons_eq_some _).mp hrun
      obtain ⟨-, outcome, k₁, -, -, hiff⟩ := trail_step_eq_some hstep
      refine ih (fun e he => hevents e (List.mem_cons_of_mem _ he))
        (fun slot => ?_) hrest
      rw [Bool.eq_false_iff, ne_eq, hiff, hleft slot,
        hevents event List.mem_cons_self]
      simp

structure RecordView where
  states : List ProcState
  inside : Option Record
  waiter : Nat
  deriving DecidableEq

def recordView (k : Kernel) : RecordView where
  states := [k.state 1, k.state 2]
  inside := k.insideAt 1
  waiter := k.recorded (.pipe 16 false)

/-- Process 1 makes a pipe, forks process 2 and sleeps in a read. -/
def reads : List Event :=
  [.syscall (.pipe true), .syscall (.fork 0x2000), .syscall (.read 3 true 1)]

/-- Process 2 writes one byte. -/
def writes : Event := .syscall (.write 4 (some fun _ => 7) 1)

theorem reader_woken_by_its_pipe : ∃ booted k k' : Kernel,
    boot (fun _ => false) 0x1000 = some booted ∧
      exec Kernel.step booted reads = some k ∧ k.step writes = some k' ∧
      WokenAt k (.pipe 16 false) k' ∧ InsideOwn k (.pipe 16 false) := by
  have hview : ((boot (fun _ => false) 0x1000).bind fun booted =>
      (exec Kernel.step booted reads).bind fun k =>
        (k.step writes).map fun k' => (recordView k, recordView k')) =
      some ({ states := [.blocked, .running]
              inside := some (.pipe 16 false)
              waiter := 1 },
            { states := [.ready, .running]
              inside := some (.pipe 16 false)
              waiter := noWaiter }) := by decide +kernel
  obtain ⟨booted, hboot, hrest⟩ := Option.bind_eq_some_iff.mp hview
  obtain ⟨k, hrun, hrest'⟩ := Option.bind_eq_some_iff.mp hrest
  obtain ⟨k', hstep, hvalues⟩ := Option.map_eq_some_iff.mp hrest'
  simp only [recordView, Prod.mk.injEq, RecordView.mk.injEq, List.cons.injEq]
    at hvalues
  obtain ⟨⟨⟨hblocked, -⟩, -, hwaiter⟩, -, -, hnone⟩ := hvalues
  have hwoken : WokenAt k (.pipe 16 false) k' := by
    refine ⟨?_, hnone, ?_⟩
    · rw [hwaiter]
      decide
    · rw [hwaiter]
      exact hblocked
  refine ⟨booted, k, k', hboot, hrun, hstep, hwoken, ?_⟩
  refine (wakeUps_run_iff _ _ (reads ++ [writes]) booted hboot).mpr
    (fun past event rest t k₂ hsplit htrail _ slot hleft => ?_)
    reads writes [] k k' rfl hrun hstep _ hwoken
  have hquiet : ∀ event ∈ reads ++ [writes], ∀ k pid,
      restarts k pid event = false := by
    simp [reads, writes, restarts]
  have hnever := left_eq_false
    (fun e he => hquiet e (hsplit ▸ List.mem_append_left _ he))
    (fun _ => rfl) htrail slot
  rw [hnever] at hleft
  cases hleft

/-- Process 2 restarts the reader with `SYS_EXEC` and sleeps for one tick.  The
restarted process 1 goes to sleep for 100 ticks, still recorded in the pipe. -/
def restarted : List Event :=
  reads ++ [.syscall (.exec 1 0x4000), .syscall (.sleep 1), .timer,
    .syscall (.sleep 100), .resume fun _ => 0]

/-- The byte that process 2 writes wakes process 1 out of `proc_sleep`. -/
theorem sleeper_woken_by_pipe :
    ((boot (fun _ => false) 0x1000).bind fun booted =>
      (exec Kernel.step booted restarted).map fun k =>
        (recordView k, k.contOf 1)) =
      some ({ states := [.blocked, .running]
              inside := none
              waiter := 1 }, some .sleep) ∧
    ((boot (fun _ => false) 0x1000).bind fun booted =>
      (exec Kernel.step booted (restarted ++ [writes])).map fun k =>
        (recordView k, k.contOf 1)) =
      some ({ states := [.ready, .running]
              inside := none
              waiter := noWaiter }, some .sleep) := by
  constructor <;> decide +kernel

end WakeUpsWitness

end Orion
