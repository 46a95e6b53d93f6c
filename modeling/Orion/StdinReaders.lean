/-
The readers of the keyboard.  `kb_waiter_pid` has room for one of them: a second
reader takes the place of the first, who then sleeps through every key press.
-/
import Orion.KeyboardInput
import Orion.WakeUps

namespace Orion

/-- The process is BLOCKED inside `kbd_read`. -/
def Kernel.BlockedAtKey (k : Kernel) (pid : Nat) : Prop :=
  k.state pid = .blocked ∧ k.insideAt pid = some .keyboard

/-- No two processes are BLOCKED inside `kbd_read`. -/
def ReadsAlone (k : Kernel) : Prop :=
  ∀ pid other, k.BlockedAtKey pid → k.BlockedAtKey other → pid = other

/-- Whoever is BLOCKED inside `kbd_read` is recorded. -/
def RecordedAtKey (k : Kernel) : Prop :=
  ∀ pid, k.BlockedAtKey pid → k.keyboard.waiterPid = pid

/-- The process is recorded as the waiter, and every key press that produces a
character makes it READY. -/
structure AwaitsKey (k : Kernel) (pid : Nat) : Prop where
  record : k.keyboard.waiterPid = pid
  woken : ∀ scancode, (k.keyboard.offered scancode).isSome = true →
    (keyHandler k scancode).state pid = .ready

section Readers

variable {k k' : Kernel} {pid : Nat}

/-- A character that is offered wakes the waiter. -/
theorem keyboardHandler_woken {kbd : Keyboard} {scancode : UInt8}
    (hoffered : (kbd.offered scancode).isSome = true)
    (hwaiter : kbd.waiterPid ≠ kbNoWaiter) :
    (keyboardHandler kbd scancode).1 = [kbd.waiterPid] := by
  have hpush : ∀ c, (kbd.push c).waiterPid = kbd.waiterPid := by
    intro c
    rw [Keyboard.push]
    split_ifs <;> rfl
  rw [offered_eq] at hoffered
  split_ifs at hoffered with hpress
  · simp only [Modifiers.isPress, decide_eq_true_eq] at hpress
    obtain ⟨⟨hdown, hleft, hright, hcaps⟩, hchar⟩ := hpress
    simp [keyboardHandler, hdown, hleft, hright, hcaps, hchar, hpush, hwaiter]
  · cases hoffered

theorem Waiting.awaitsKey (hwaiting : Waiting k) (hrecorded : RecordedAtKey k)
    (hblocked : k.BlockedAtKey pid) : AwaitsKey k pid := by
  have hrecord := hrecorded pid hblocked
  refine ⟨hrecord, fun scancode hoffered => ?_⟩
  have hrange : pid < maxProcs :=
    hwaiting.lt_maxProcs (by rw [hblocked.1]; decide)
  have hwaiter : k.keyboard.waiterPid ≠ kbNoWaiter := by
    have hlt : maxProcs < kbNoWaiter := by decide
    omega
  have hmem : pid ∈ (keyboardHandler k.keyboard scancode).1 := by
    rw [keyboardHandler_woken hoffered hwaiter, hrecord]
    exact List.mem_singleton_self pid
  rcases (keyHandler_calm k scancode).state pid with hsame | ⟨-, hready⟩
  · rw [hblocked.1] at hsame
    exact absurd hsame (wakeAll_unblocks _ hmem hrange)
  · exact hready

theorem blockedAtKey_of_yield {self : Nat} {event : Event} {outcome : Outcome}
    {k₁ : Kernel} (hwaiting : Waiting k)
    (hcurrent : k.currentProc = some self)
    (hhandler : k.handler event = some (outcome, k₁))
    (hat : outcome.record = some .keyboard) :
    (settle (outcome, k₁)).BlockedAtKey self := by
  have hseg := handler_segmented hwaiting.toSound hcurrent hhandler
  refine ⟨?_, (insideAt_settle_self hseg.sound hseg.current).trans hat⟩
  cases outcome with
  | ret value reply => cases hat
  | yield cont =>
      apply blocked_of_yield hwaiting hcurrent hhandler
      rintro rfl
      cases hat

theorem step_recordedAtKey {event : Event} (hwaiting : Waiting k)
    (hrecorded : RecordedAtKey k) (halone : ReadsAlone k')
    (hstep : k.step event = some k') : RecordedAtKey k' := by
  obtain ⟨self, outcome, k₁, hcurrent, hhandler, rfl, hrecords⟩ :=
    step_records hwaiting hstep
  intro pid hblocked
  obtain ⟨cont, hcont, hat⟩ := Option.bind_eq_some_iff.mp hblocked.2
  have hkey := hrecords.key
  simp only [← Outcome.record_eq_some_keyboard] at hkey
  apply step_recorded hwaiting hstep hcurrent hhandler hkey hblocked.1 hcont
  · intro hsame
    exact halone pid self hblocked
      (blockedAtKey_of_yield hwaiting hcurrent hhandler hsame)
  · rintro rfl
    exact hat
  · intro hstill hinside
    exact hrecorded pid ⟨hstill, by rw [Kernel.insideAt, hinside]; exact hat⟩

end Readers

/-- In a run no reader of the keyboard is forgotten, exactly if never two
processes are BLOCKED inside `kbd_read`. -/
theorem stdin_run_awaits_iff (refuses : Nat → Bool) (idleEntry : Nat)
    (events : List Event) (booted : Kernel)
    (hboot : boot refuses idleEntry = some booted) :
    (∀ past rest mid, events = past ++ rest →
      Machine.exec Kernel.step booted past = some mid →
      ∀ pid, mid.BlockedAtKey pid → AwaitsKey mid pid) ↔
    ∀ past rest mid, events = past ++ rest →
      Machine.exec Kernel.step booted past = some mid → ReadsAlone mid := by
  have hkeep : ∀ (k : Kernel) (event : Event) (k' : Kernel),
      (Waiting k ∧ RecordedAtKey k) → ReadsAlone k' →
      k.step event = some k' → (Waiting k' ∧ RecordedAtKey k') :=
    fun _ _ _ hinv halone hstep => ⟨step_waiting hinv.1 hstep,
      step_recordedAtKey hinv.1 hinv.2 halone hstep⟩
  have hinit : RecordedAtKey booted := by
    rintro pid ⟨-, hinside⟩
    rw [Kernel.insideAt, (boot_sound hboot).2 pid] at hinside
    cases hinside
  constructor
  · intro hall past rest mid hsplit hmid pid other hpid hother
    rw [← (hall past rest mid hsplit hmid pid hpid).record]
    exact (hall past rest mid hsplit hmid other hother).record
  · intro halone past rest mid hsplit hmid pid hblocked
    have hbefore : ∀ before after k, past = before ++ after →
        Machine.exec Kernel.step booted before = some k → ReadsAlone k := by
      intro before after k hpast hk
      refine halone before (after ++ rest) k ?_ hk
      rw [hsplit, hpast, List.append_assoc]
    obtain ⟨hwaiting, hrecorded⟩ := Machine.exec_invariant_along hkeep
      ⟨boot_waiting hboot, hinit⟩ hbefore hmid
    exact hwaiting.awaitsKey hrecorded hblocked

namespace StdinReadersWitness

open Machine (exec passes)

/-- Process 1 forks process 2 and reads from stdin. -/
def oneReader : List Event :=
  [.syscall (.fork 0x2000), .syscall (.read 0 true 1)]

/-- Nobody but process 1 is inside `kbd_read`. -/
def onlyFirst (k : Kernel) : Bool :=
  (List.range maxProcs).all fun pid => pid == 1 || (k.contOf pid).isNone

theorem one_reader_awaits : ∃ booted k : Kernel,
    boot (fun _ => false) 0x1000 = some booted ∧
      exec Kernel.step booted oneReader = some k ∧ k.BlockedAtKey 1 ∧
      AwaitsKey k 1 := by
  have hview : ((boot (fun _ => false) 0x1000).bind fun booted =>
      (exec Kernel.step booted oneReader).map fun k =>
        (k.state 1, k.insideAt 1, passes onlyFirst Kernel.step booted
          oneReader)) = some (.blocked, some .keyboard, true) := by
    decide +kernel
  obtain ⟨booted, hboot, hrest⟩ := Option.bind_eq_some_iff.mp hview
  obtain ⟨k, hrun, hvalues⟩ := Option.map_eq_some_iff.mp hrest
  simp only [Prod.mk.injEq] at hvalues
  obtain ⟨hstate, hinside, hpasses⟩ := hvalues
  refine ⟨booted, k, hboot, hrun, ⟨hstate, hinside⟩, ?_⟩
  refine (stdin_run_awaits_iff _ _ oneReader booted hboot).mpr ?_ oneReader []
    k (List.append_nil _).symm hrun 1 ⟨hstate, hinside⟩
  intro past rest mid hsplit hmid
  have hall := Machine.check_of_passes hpasses hsplit hmid
  have hwaiting := Machine.exec_invariant (fun _ _ _ => step_waiting)
    (boot_waiting hboot) hmid
  have hone : ∀ pid, mid.BlockedAtKey pid → pid = 1 := by
    intro pid hblocked
    obtain ⟨cont, hcont, -⟩ := Option.bind_eq_some_iff.mp hblocked.2
    have hrange := hwaiting.lt_maxProcs (hwaiting.used pid cont hcont)
    have hpid := List.all_eq_true.mp hall pid (List.mem_range.mpr hrange)
    simpa [hcont] using hpid
  exact fun pid other hpid hother => (hone pid hpid).trans (hone other hother).symm

/-- Process 1 forks processes 2 and 3; then two of the three read from the
stdin they share. -/
def twoReaders : List Event :=
  [.syscall (.fork 0x2000), .syscall (.fork 0x3000),
    .syscall (.read 0 true 1), .syscall (.read 0 true 1)]

/-- The key wakes the second reader only. -/
theorem earlier_reader_forgotten :
    ((boot (fun _ => false) 0x1000).bind fun booted =>
      (exec Kernel.step booted twoReaders).bind fun k =>
        (k.step (.key 0x1E)).map fun k' =>
          ([k.state 1, k.state 3], [k.insideAt 1, k.insideAt 3],
            k.keyboard.waiterPid, [k'.state 1, k'.state 3])) =
      some ([.blocked, .blocked], [some .keyboard, some .keyboard], 3,
        [.blocked, .ready]) := by
  decide +kernel

end StdinReadersWitness

end Orion
