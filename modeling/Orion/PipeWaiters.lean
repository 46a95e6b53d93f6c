/-
Who sleeps on a pipe and who is recorded there.  A pipe has one waiter slot
for each end: a sleeper is remembered as long as nobody else goes to sleep on
the same end, and with one reader and one writer nobody sleeps without cause.
-/
import Orion.Relays

namespace Orion

def Outcome.pipeEnd : Outcome → Option (Ref × Bool)
  | .ret _ _ => none
  | .yield cont => cont.pipeEnd

def Outcome.atKeyboard : Outcome → Bool
  | .ret _ _ => false
  | .yield cont => cont.atKeyboard

/-- What a step of the process `cur` does to the records. -/
structure Records (cur : Nat) (k : Kernel) (outcome : Outcome) (k' : Kernel) :
    Prop where
  blocked : ∀ pid, pid ≠ cur → k'.state pid = .blocked → k.state pid = .blocked
  slot : ∀ p isWrite, if outcome.pipeEnd = some (p, isWrite)
    then (k'.store.pipes p).waiter isWrite = cur
    else Cleared cur k' pipeNoWaiter
      ((k.store.pipes p).waiter isWrite) ((k'.store.pipes p).waiter isWrite)
  key : if outcome.atKeyboard then k'.keyboard.waiterPid = cur
    else Cleared cur k' kbNoWaiter k.keyboard.waiterPid k'.keyboard.waiterPid
  fit : ∀ cont, outcome = .yield cont → cont.Fit k'.store
  next : k.store.next ≤ k'.store.next
  room : PipeRoom k'.store
  pipe : ∀ p, (k'.store.pipes p).Justified
  keyboard : k'.keyboard.Justified

/-- Whoever is inside a pipe operation has bytes left to move, and whoever is
recorded has a reason to wait. -/
structure Waiting (k : Kernel) : Prop extends Asleep k where
  room : PipeRoom k.store
  fit : ∀ pid cont, k.contOf pid = some cont → cont.Fit k.store
  pipe : ∀ p, (k.store.pipes p).Justified
  keyboard : k.keyboard.Justified

section Recording

variable {cur : Nat} {k k₁ k' : Kernel} {outcome : Outcome}

theorem pipeBlock_waiter (pipe : Pipe) (blocks isWrite : Bool) (pid : Nat) :
    (pipeBlock pipe blocks pid).waiter isWrite =
      if isWrite = blocks then pid else pipe.waiter isWrite := by
  cases blocks <;> cases isWrite <;> rfl

theorem pipeBlock_justified {pipe : Pipe} {isWrite : Bool} (pid : Nat)
    (hjust : pipe.Justified) (hwait : pipe.MustWait isWrite) :
    (pipeBlock pipe isWrite pid).Justified := by
  have hsame : ∀ other, (pipeBlock pipe isWrite pid).MustWait other ↔
      pipe.MustWait other := by
    intro other
    cases isWrite <;> cases other <;> rfl
  refine ⟨hjust.inRange.block isWrite pid, fun other hwaiter => ?_⟩
  rw [hsame]
  rw [pipeBlock_waiter] at hwaiter
  split_ifs at hwaiter with hother
  · exact hother ▸ hwait
  · exact hjust.reason other hwaiter

/-- What the last part of a segment, the sleep, adds. -/
theorem Falls.records (hfalls : Falls cur k outcome k')
    (hpid : (k.procs cur).pid = cur) (hroom : PipeRoom k.store)
    (hpipe : ∀ p, (k.store.pipes p).Justified)
    (hkeyboard : k.keyboard.Justified) : Records cur k outcome k' := by
  have hclear : ∀ {none slot : Nat}, Cleared cur k none slot slot := .inl rfl
  cases hfalls with
  | returns value reply =>
      exact ⟨fun _ _ => id, fun _ _ => hclear, hclear, fun _ => nofun,
        Nat.le_refl _, hroom, hpipe, hkeyboard⟩
  | @onPipe cont p isWrite hcont hfit hwait =>
      have hkey : cont.atKeyboard = false := by
        cases cont <;> first | rfl | cases hcont
      rw [hpid]
      refine ⟨fun _ _ => id, ?_, ?_, ?_, Nat.le_refl _, ?_, ?_, hkeyboard⟩
      · intro q other
        rw [show (Outcome.yield cont).pipeEnd = some (p, isWrite) from hcont]
        by_cases hq : q = p
        · subst hq
          have hwaiter : (((k.store.setPipe q (pipeBlock (k.store.pipes q)
              isWrite cur)).pipes q).waiter other) =
              if other = isWrite then cur
              else (k.store.pipes q).waiter other := by
            simp only [Store.setPipe, Function.update_self, pipeBlock_waiter]
          by_cases hother : other = isWrite
          · rw [if_pos (by rw [hother])]
            exact hwaiter.trans (if_pos hother)
          · rw [if_neg fun h => hother (Prod.mk.inj (Option.some.inj h)).2.symm]
            exact .inl (hwaiter.trans (if_neg hother))
        · rw [if_neg fun h => hq (Prod.mk.inj (Option.some.inj h)).1.symm]
          refine .inl (congrArg (fun pipe : Pipe => pipe.waiter other) ?_)
          exact Function.update_of_ne hq _ _
      · rw [show (Outcome.yield cont).atKeyboard = false from hkey]
        exact hclear
      · rintro _ ⟨⟩
        cases cont <;> exact hfit
      · have hp : p < k.store.next := by
          cases cont with
          | pipeRead f q len moved =>
              obtain ⟨rfl, -⟩ := Prod.mk.inj (Option.some.inj hcont)
              exact hfit.1
          | pipeWrite f q len moved =>
              obtain ⟨rfl, -⟩ := Prod.mk.inj (Option.some.inj hcont)
              exact hfit.1
          | _ => cases hcont
        refine ⟨hroom.ends, fun q hq => ?_⟩
        have hne : q ≠ p := fun h => absurd hp (Nat.not_lt.mpr (h ▸ hq))
        exact (Function.update_of_ne hne _ _).trans (hroom.unborn q hq)
      · refine (Function.forall_update_iff k.store.pipes
          fun _ pipe => pipe.Justified).mpr ⟨?_, fun q _ => hpipe q⟩
        exact pipeBlock_justified cur (hpipe p) hwait
  | atKeyboard f len hnone =>
      exact ⟨fun _ _ => id, fun _ _ => hclear, hpid, fun _ h => by cases h; trivial,
        Nat.le_refl _, hroom, hpipe, fun _ => hnone⟩
  | @elsewhere cont hnone hkey =>
      refine ⟨fun _ _ => id, fun p isWrite => ?_, ?_, ?_, Nat.le_refl _, hroom,
        hpipe, hkeyboard⟩
      · rw [show (Outcome.yield cont).pipeEnd = none from hnone]
        exact hclear
      · rw [show (Outcome.yield cont).atKeyboard = false from hkey]
        exact hclear
      · rintro _ ⟨⟩
        cases cont <;> trivial

theorem Falls.procs (hfalls : Falls cur k outcome k') :
    k'.procs = k.procs := by
  cases hfalls <;> rfl

theorem Relays.then_records {j : Kernel} (hrelays : Relays cur k j)
    (hroom : PipeRoom k.store) (hrecords : Records cur j outcome k') :
    Records cur k outcome k' where
  blocked := fun pid hne h =>
    hrelays.blocked pid hne (hrecords.blocked pid hne h)
  slot := by
    intro p isWrite
    have hslot := hrecords.slot p isWrite
    split_ifs at hslot ⊢
    · exact hslot
    · exact (hrelays.slot hroom p isWrite).trans hrecords.blocked hslot
  key := by
    have hkey := hrecords.key
    split_ifs at hkey ⊢
    · exact hkey
    · exact hrelays.key.trans hrecords.blocked hkey
  fit := hrecords.fit
  next := hrelays.next.trans hrecords.next
  room := hrecords.room
  pipe := hrecords.pipe
  keyboard := hrecords.keyboard

theorem keyboard_schedSwitchEsp (k : Kernel) (esp : Frame) :
    (schedSwitchEsp k esp).keyboard = k.keyboard := by
  unfold schedSwitchEsp
  split_ifs
  · rfl
  dsimp only
  split
  · rfl
  · unfold schedExpire
    split_ifs
    · rfl
    · split <;> rfl

theorem keyboard_settle (outcome : Outcome) (k : Kernel) :
    (settle (outcome, k)).keyboard = k.keyboard := by
  cases outcome with
  | ret value reply => exact keyboard_schedSwitchEsp k _
  | yield cont =>
      refine (keyboard_schedSwitchEsp _ _).trans ?_
      unfold schedForceSwitch
      dsimp only
      split <;> rfl

/-- The switch at the end leaves the records alone. -/
theorem Records.settle (hrecords : Records cur k outcome k₁) :
    Records cur k outcome (settle (outcome, k₁)) := by
  have hswitch := settle_switches (outcome, k₁)
  have hstate : ∀ pid, (Orion.settle (outcome, k₁)).state pid = .blocked ↔
      k₁.state pid = .blocked :=
    fun pid => hswitch.state_iff (by decide) (by decide)
  have hcleared : ∀ {none before after : Nat},
      Cleared cur k₁ none before after →
      Cleared cur (Orion.settle (outcome, k₁)) none before after := by
    rintro none before after (hsame | ⟨hnone, hwoken⟩)
    · exact .inl hsame
    · exact .inr ⟨hnone, fun hrange hne h =>
        hwoken hrange hne ((hstate before).mp h)⟩
  constructor
  · exact fun pid hne h => hrecords.blocked pid hne ((hstate pid).mp h)
  · intro p isWrite
    rw [hswitch.store]
    have hslot := hrecords.slot p isWrite
    split_ifs at hslot ⊢
    · exact hslot
    · exact hcleared hslot
  · rw [keyboard_settle]
    have hkey := hrecords.key
    split_ifs at hkey ⊢
    · exact hkey
    · exact hcleared hkey
  · rw [hswitch.store]
    exact hrecords.fit
  · rw [hswitch.store]
    exact hrecords.next
  · rw [hswitch.store]
    exact hrecords.room
  · rw [hswitch.store]
    exact hrecords.pipe
  · rw [keyboard_settle]
    exact hrecords.keyboard

/-- What a step does to the records. -/
theorem step_records {event : Event} (hwaiting : Waiting k)
    (hstep : k.step event = some k') :
    ∃ self outcome k₁, k.currentProc = some self ∧
      k.handler event = some (outcome, k₁) ∧ k' = settle (outcome, k₁) ∧
      Records self k outcome k' := by
  obtain ⟨outcome, k₁, hhandler, rfl⟩ := step_eq_some hstep
  obtain ⟨self, hcurrent, -⟩ := handler_handles hhandler
  have hfit : ∀ cont, k.resume = some cont → cont.Fit k.store := by
    intro cont hresume
    apply hwaiting.fit self cont
    rw [Kernel.contOf, if_pos hcurrent, hresume]
  obtain ⟨j, hrelays, hfalls⟩ :=
    handler_goes hwaiting.room hfit hcurrent hhandler
  have hseg := handler_segmented hwaiting.toSound hcurrent hhandler
  have hpid : (j.procs self).pid = self := by
    rw [← hfalls.procs]
    exact hseg.sound.table.pid self
  refine ⟨self, outcome, k₁, hcurrent, hhandler, rfl, Records.settle ?_⟩
  exact hrelays.then_records hwaiting.room
    (hfalls.records hpid (hrelays.room hwaiting.room)
      (fun p => hrelays.pipe hwaiting.room p (hwaiting.pipe p))
      (hrelays.keyboard hwaiting.keyboard))

theorem Cont.Fit.mono {store store' : Store} {cont : Cont}
    (hfit : cont.Fit store) (hnext : store.next ≤ store'.next) :
    cont.Fit store' := by
  cases cont with
  | pipeRead f p len moved => exact ⟨hfit.1.trans_le hnext, hfit.2⟩
  | pipeWrite f p len moved => exact ⟨hfit.1.trans_le hnext, hfit.2⟩
  | _ => trivial

theorem step_waiting {event : Event} (hwaiting : Waiting k)
    (hstep : k.step event = some k') : Waiting k' := by
  obtain ⟨self, outcome, k₁, hcurrent, hhandler, -, hrecords⟩ :=
    step_records hwaiting hstep
  refine ⟨step_asleep hwaiting.toAsleep hstep, hrecords.room, ?_,
    hrecords.pipe, hrecords.keyboard⟩
  intro pid cont hcont
  rcases step_inside hwaiting.toSound hstep hcont with
    ⟨-, hbefore, -⟩ | ⟨-, k₂, hyield, -⟩
  · exact (hwaiting.fit pid cont hbefore).mono hrecords.next
  · apply hrecords.fit cont
    rw [hhandler] at hyield
    exact (Prod.mk.inj (Option.some.inj hyield)).1

end Recording

/-- A segment, or a call of `proc_wake` from anywhere else. -/
def Kernel.stepOrWake (k : Kernel) : Event ⊕ Nat → Option Kernel
  | .inl event => k.step event
  | .inr pid => (procGet k pid).map fun pid => procWake k pid

section Wakes

variable {k k' : Kernel} {pid : Nat}

theorem contOf_procWake (k : Kernel) (pid other : Nat) :
    (procWake k pid).contOf other = k.contOf other := by
  have hresume : ∀ k : Kernel, (schedAdd k pid).resume = k.resume := by
    intro k
    unfold schedAdd
    split_ifs <;> rfl
  have hcalm := (procWake_calm k pid).toStirs
  have hsame : (procWake k pid).resume = k.resume := by
    unfold procWake
    split_ifs
    · rfl
    · exact hresume _
  rw [Kernel.contOf, Kernel.contOf, hcalm.current, hcalm.frame, hsame]

/-- A process that is woken is where it was. -/
theorem procWake_waiting (hwaiting : Waiting k) (pid : Nat) :
    Waiting (procWake k pid) := by
  have hcalm := procWake_calm k pid
  have hrelays := @procWake_relays pid k pid
  have hstate : ∀ other state, state ≠ .blocked → state ≠ .ready →
      ((procWake k pid).state other = state ↔ k.state other = state) := by
    intro other state hblocked hready
    rcases hcalm.state other with hsame | ⟨hold, hnew⟩
    · rw [hsame]
    · rw [hold, hnew]
      exact iff_of_false hready.symm hblocked.symm
  constructor
  · constructor
    · exact ⟨hwaiting.table.stirs hcalm.toStirs,
        hwaiting.framed.mild hcalm.toStirs.mild⟩
    · intro other cont hcont
      rw [contOf_procWake] at hcont
      rw [ne_eq, hstate other .unused (by decide) (by decide)]
      exact hwaiting.used other cont hcont
    · intro other cont hcont
      rw [contOf_procWake] at hcont
      rw [hstate other .zombie (by decide) (by decide)]
      exact hwaiting.zombie other cont hcont
  · exact hrelays.room hwaiting.room
  · intro other cont hcont
    rw [contOf_procWake] at hcont
    exact (hwaiting.fit other cont hcont).mono hrelays.next
  · exact fun p => hrelays.pipe hwaiting.room p (hwaiting.pipe p)
  · exact hrelays.keyboard hwaiting.keyboard

theorem stepOrWake_waiting {label : Event ⊕ Nat} (hwaiting : Waiting k)
    (hstep : k.stepOrWake label = some k') : Waiting k' := by
  cases label with
  | inl event => exact step_waiting hwaiting hstep
  | inr pid =>
      obtain ⟨found, -, rfl⟩ := Option.map_eq_some_iff.mp hstep
      exact procWake_waiting hwaiting found

end Wakes

section Boot

variable {self : Nat} {refuses : Nat → Bool} {idleEntry : Nat} {k : Kernel}

theorem boot_relays (hboot : boot refuses idleEntry = some k) :
    Relays self (Kernel.reset (Store.empty refuses)) k := by
  have hstore : Relays self (Kernel.reset (Store.empty refuses))
      (Kernel.reset (devfsInit (ramfsInit (Store.empty refuses)))) :=
    .of_aside (fun _ _ => id) rfl
      (fsInit_adds _).aside
  unfold boot at hboot
  dsimp only at hboot
  generalize Kernel.reset (devfsInit (ramfsInit (Store.empty refuses))) = k₀
    at hboot hstore
  have hcreate := @procCreate_relays self k₀ procPrioIdle
  split at hboot
  · cases hboot
  rename_i idle k₁ heq
  rw [heq] at hcreate
  obtain ⟨k₂, hready, hstart⟩ := Option.bind_eq_some_iff.mp hboot
  obtain ⟨-, rfl⟩ := procSetReady_eq_some hready
  unfold schedStart at hstart
  split at hstart
  · cases hstart
  · rw [← Option.some.inj hstart]
    refine Relays.trans ?_ ((Relays.setPcb_awake ProcState.noConfusion).trans
      (.of_aside (fun _ _ => id) rfl (.refl _)))
    exact (hstore.trans hcreate).trans
      ((procInitFrame_relays k₁ idle idleEntry).trans
        ((Relays.setPcb_awake ProcState.noConfusion).trans
          (schedAdd_relays _ idle)))

theorem boot_waiting (hboot : boot refuses idleEntry = some k) :
    Waiting k := by
  have hrelays := @boot_relays 0 refuses idleEntry k hboot
  have hroom : PipeRoom (Store.empty refuses) :=
    ⟨fun _ => Nat.one_pos, fun _ _ => rfl⟩
  refine ⟨boot_asleep hboot, hrelays.room hroom, ?_, fun p => ?_, ?_⟩
  · intro pid cont hcont
    rw [(boot_sound hboot).2 pid] at hcont
    cases hcont
  · have hfresh : PipeInRange Pipe.fresh := ⟨by decide, by decide⟩
    refine hrelays.pipe hroom p ⟨hfresh, fun isWrite hwaiter => ?_⟩
    cases isWrite <;> exact absurd rfl hwaiter
  · exact hrelays.keyboard fun h => absurd rfl h

end Boot

/-- The end of a pipe whose operation a process is in. -/
def Kernel.insideEnd (k : Kernel) (pid : Nat) : Option (Ref × Bool) :=
  (k.contOf pid).bind Cont.pipeEnd

/-- The process is BLOCKED inside `pipe_block`. -/
def Kernel.BlockedOn (k : Kernel) (pid : Nat) (p : Ref) (isWrite : Bool) :
    Prop :=
  k.state pid = .blocked ∧ k.insideEnd pid = some (p, isWrite)

/-- No two processes are BLOCKED on the same end. -/
def SleepsAlone (k : Kernel) (p : Ref) (isWrite : Bool) : Prop :=
  ∀ pid other, k.BlockedOn pid p isWrite → k.BlockedOn other p isWrite →
    pid = other

/-- Whoever is BLOCKED on the end is recorded there. -/
def RecordedOn (k : Kernel) (p : Ref) (isWrite : Bool) : Prop :=
  ∀ pid, k.BlockedOn pid p isWrite → (k.store.pipes p).waiter isWrite = pid

/-- The process is recorded on the pipe, and `pipe_wake_peer` from the
opposite end makes it READY. -/
structure Remembered (k : Kernel) (pid : Nat) (p : Ref) (isWrite : Bool) :
    Prop where
  record : (k.store.pipes p).waiter isWrite = pid
  woken : (wakeAll k (pipeWakePeer (k.store.pipes p) !isWrite).1).state pid =
    .ready

section Remembering

variable {k k' : Kernel} {p : Ref} {isWrite : Bool} {pid : Nat}

theorem Waiting.lt_maxProcs (hwaiting : Waiting k)
    (hused : k.state pid ≠ .unused) : pid < maxProcs :=
  (hwaiting.table.range pid hused).2

theorem Waiting.remembered (hwaiting : Waiting k)
    (hrecorded : RecordedOn k p isWrite)
    (hblocked : k.BlockedOn pid p isWrite) : Remembered k pid p isWrite := by
  have hrecord := hrecorded pid hblocked
  refine ⟨hrecord, ?_⟩
  have hrange : pid < maxProcs :=
    hwaiting.lt_maxProcs (by rw [hblocked.1]; decide)
  have hmem : pid ∈ (pipeWakePeer (k.store.pipes p) !isWrite).1 := by
    have hwoken := @pipeWakePeer_woken (k.store.pipes p) (!isWrite)
    rw [Bool.not_not, hrecord] at hwoken
    refine hwoken ?_
    have hlt : maxProcs < pipeNoWaiter := by decide
    omega
  rcases (wakeAll_calm k (pipeWakePeer (k.store.pipes p) !isWrite).1).state pid
    with hsame | ⟨-, hready⟩
  · rw [hblocked.1] at hsame
    exact absurd hsame (wakeAll_unblocks k hmem hrange)
  · exact hready

/-- A process that yields is BLOCKED, unless it exits. -/
theorem blocked_of_yield {self : Nat} {event : Event} {cont : Cont}
    {k₁ : Kernel} (hwaiting : Waiting k)
    (hcurrent : k.currentProc = some self)
    (hhandler : k.handler event = some (.yield cont, k₁))
    (hexit : cont ≠ .exit) :
    (settle (.yield cont, k₁)).state self = .blocked := by
  have hseg := handler_segmented hwaiting.toSound hcurrent hhandler
  have hafter : k₁.state self = if cont = .exit then .zombie else .blocked :=
    hseg.after
  rw [(settle_switches _).state_iff (by decide) (by decide), hafter,
    if_neg hexit]

/-- A process that yields in a pipe operation is BLOCKED on that end. -/
theorem blockedOn_of_yield {self : Nat} {event : Event} {outcome : Outcome}
    {k₁ : Kernel} (hwaiting : Waiting k)
    (hcurrent : k.currentProc = some self)
    (hhandler : k.handler event = some (outcome, k₁))
    (hend : outcome.pipeEnd = some (p, isWrite)) :
    (settle (outcome, k₁)).BlockedOn self p isWrite := by
  have hseg := handler_segmented hwaiting.toSound hcurrent hhandler
  cases outcome with
  | ret value reply => cases hend
  | yield cont =>
      constructor
      · apply blocked_of_yield hwaiting hcurrent hhandler
        rintro rfl
        cases hend
      · rw [Kernel.insideEnd, contOf_settle hseg.sound, if_pos hseg.current]
        exact hend

/-- A slot records who is BLOCKED at its place if nobody else has just gone to
sleep there and it did so before. -/
theorem step_recorded {self sleeper empty old new : Nat} {event : Event}
    {outcome : Outcome} {k₁ : Kernel} {cont : Cont} {here : Prop}
    [Decidable here] (hwaiting : Waiting k) (hstep : k.step event = some k')
    (hcurrent : k.currentProc = some self)
    (hhandler : k.handler event = some (outcome, k₁))
    (hslot : if here then new = self else Cleared self k' empty old new)
    (hblocked : k'.state sleeper = .blocked)
    (hcont : k'.contOf sleeper = some cont)
    (halone : here → sleeper = self) (hhere : outcome = .yield cont → here)
    (hbefore : k.state sleeper = .blocked → k.contOf sleeper = some cont →
      old = sleeper) : new = sleeper := by
  rcases step_inside hwaiting.toSound hstep hcont with
    ⟨hother, hinside, hstill, -⟩ | ⟨hself, k₂, hyield, -⟩
  · have hne : sleeper ≠ self := fun h => hother (h ▸ hcurrent)
    have hrecord := hbefore (hstill hblocked) hinside
    split_ifs at hslot with hsame
    · exact absurd (halone hsame) hne
    · rcases hslot with hkept | ⟨-, hwoken⟩
      · exact hkept.trans hrecord
      · rw [hrecord] at hwoken
        refine absurd hblocked (hwoken ?_ hne)
        exact (step_waiting hwaiting hstep).lt_maxProcs
          (by rw [hblocked]; decide)
  · obtain rfl : self = sleeper := Option.some.inj (hcurrent.symm.trans hself)
    rw [hhandler] at hyield
    obtain ⟨rfl, -⟩ := Prod.mk.inj (Option.some.inj hyield)
    rwa [if_pos (hhere rfl)] at hslot

theorem step_recordedOn {event : Event} (hwaiting : Waiting k)
    (hrecorded : RecordedOn k p isWrite) (halone : SleepsAlone k' p isWrite)
    (hstep : k.step event = some k') : RecordedOn k' p isWrite := by
  obtain ⟨self, outcome, k₁, hcurrent, hhandler, rfl, hrecords⟩ :=
    step_records hwaiting hstep
  rintro pid hblocked
  obtain ⟨cont, hcont, hend⟩ := Option.bind_eq_some_iff.mp hblocked.2
  apply step_recorded hwaiting hstep hcurrent hhandler
    (hrecords.slot p isWrite) hblocked.1 hcont
  · intro hsame
    exact halone pid self hblocked
      (blockedOn_of_yield hwaiting hcurrent hhandler hsame)
  · rintro rfl
    exact hend
  · intro hstill hinside
    exact hrecorded pid ⟨hstill, by rw [Kernel.insideEnd, hinside]; exact hend⟩

theorem procWake_recordedOn (hrecorded : RecordedOn k p isWrite) (pid : Nat) :
    RecordedOn (procWake k pid) p isWrite := by
  rintro other ⟨hblocked, hinside⟩
  have hstore : (procWake k pid).store = k.store := by
    unfold procWake
    split_ifs
    · rfl
    · exact (schedAdd_still _ pid).store
  rw [hstore]
  apply hrecorded other
  refine ⟨(procWake_calm k pid).toStirs.blocked other hblocked, ?_⟩
  rw [Kernel.insideEnd, contOf_procWake] at hinside
  exact hinside

theorem stepOrWake_recordedOn {label : Event ⊕ Nat} (hwaiting : Waiting k)
    (hrecorded : RecordedOn k p isWrite) (halone : SleepsAlone k' p isWrite)
    (hstep : k.stepOrWake label = some k') : RecordedOn k' p isWrite := by
  cases label with
  | inl event => exact step_recordedOn hwaiting hrecorded halone hstep
  | inr pid =>
      obtain ⟨found, -, rfl⟩ := Option.map_eq_some_iff.mp hstep
      exact procWake_recordedOn hrecorded found

/-- As long as nobody goes to sleep beside another, everybody is recorded. -/
theorem run_recordedOn {labels : List (Event ⊕ Nat)} (hwaiting : Waiting k)
    (hrecorded : RecordedOn k p isWrite)
    (halone : ∀ past rest mid, labels = past ++ rest →
      Machine.exec Kernel.stepOrWake k past = some mid →
      SleepsAlone mid p isWrite)
    (hrun : Machine.exec Kernel.stepOrWake k labels = some k') :
    Waiting k' ∧ RecordedOn k' p isWrite := by
  have hkeep : ∀ (k : Kernel) (label : Event ⊕ Nat) (k' : Kernel),
      (Waiting k ∧ RecordedOn k p isWrite) → SleepsAlone k' p isWrite →
      k.stepOrWake label = some k' → (Waiting k' ∧ RecordedOn k' p isWrite) :=
    fun _ _ _ hinv halone hstep => ⟨stepOrWake_waiting hinv.1 hstep,
      stepOrWake_recordedOn hinv.1 hinv.2 halone hstep⟩
  exact Machine.exec_invariant_along hkeep ⟨hwaiting, hrecorded⟩ halone hrun

theorem boot_recordedOn {refuses : Nat → Bool} {idleEntry : Nat}
    (hboot : boot refuses idleEntry = some k) (p : Ref) (isWrite : Bool) :
    RecordedOn k p isWrite := by
  rintro pid ⟨-, hinside⟩
  rw [Kernel.insideEnd, (boot_sound hboot).2 pid] at hinside
  cases hinside

end Remembering

/-- In a run nobody who is BLOCKED on a pipe is forgotten, exactly if never two
processes are BLOCKED on the same end of a pipe. -/
theorem remembered_run_iff (refuses : Nat → Bool) (idleEntry : Nat)
    (labels : List (Event ⊕ Nat)) (booted : Kernel)
    (hboot : boot refuses idleEntry = some booted) :
    (∀ past rest mid, labels = past ++ rest →
      Machine.exec Kernel.stepOrWake booted past = some mid →
      ∀ pid p isWrite, mid.BlockedOn pid p isWrite →
        Remembered mid pid p isWrite) ↔
    ∀ past rest mid, labels = past ++ rest →
      Machine.exec Kernel.stepOrWake booted past = some mid →
      ∀ p isWrite, SleepsAlone mid p isWrite := by
  constructor
  · intro hall past rest mid hsplit hmid p isWrite pid other hpid hother
    rw [← (hall past rest mid hsplit hmid pid p isWrite hpid).record]
    exact (hall past rest mid hsplit hmid other p isWrite hother).record
  · intro halone past rest mid hsplit hmid pid p isWrite hblocked
    have halone' : ∀ before after k, past = before ++ after →
        Machine.exec Kernel.stepOrWake booted before = some k →
        SleepsAlone k p isWrite := by
      intro before after k hpast hk
      refine halone before (after ++ rest) k ?_ hk p isWrite
      rw [hsplit, hpast, List.append_assoc]
    obtain ⟨hwaiting, hrecorded⟩ := run_recordedOn (boot_waiting hboot)
      (boot_recordedOn hboot p isWrite) halone' hmid
    exact hwaiting.remembered hrecorded hblocked

/-- A pipe with one reader and one writer: whoever is BLOCKED on it has a
reason, the two are never both BLOCKED, and every call comes to an end: a read
returns less than `len` only at the end of file with nothing left, a write
returns `len` or -1. -/
theorem pipe_run_sleeps_with_cause (refuses : Nat → Bool) (idleEntry : Nat)
    (labels : List (Event ⊕ Nat)) (booted k : Kernel) (p : Ref)
    (reader writer : Nat) (hboot : boot refuses idleEntry = some booted)
    (hrun : Machine.exec Kernel.stepOrWake booted labels = some k)
    (husers : ∀ past rest mid, labels = past ++ rest →
      Machine.exec Kernel.stepOrWake booted past = some mid →
      ∀ pid isWrite, mid.insideEnd pid = some (p, isWrite) →
        pid = if isWrite then writer else reader) :
    (k.BlockedOn reader p false →
      (k.store.pipes p).count = 0 ∧ 0 < (k.store.pipes p).writers) ∧
    (k.BlockedOn writer p true →
      (k.store.pipes p).count = pipeBufsz ∧ 0 < (k.store.pipes p).readers) ∧
    ¬ (k.BlockedOn reader p false ∧ k.BlockedOn writer p true) ∧
    (∀ len moved, (moved = 0 ∨
        ∃ f, k.contOf reader = some (.pipeRead f p len moved)) →
      let segment := pipeReadOp len (PipeCall.enter (k.store.pipes p) moved)
      segment.1 ≠ .endless ∧ ReadEnds len segment) ∧
    (∀ len src,
      let segment := pipeWriteOp len src (PipeCall.enter (k.store.pipes p) 0)
      segment.1 ≠ .endless ∧ WriteEnds len segment) ∧
    ∀ f len moved src, k.contOf writer = some (.pipeWrite f p len moved) →
      let segment :=
        pipeWriteResume len src (PipeCall.enter (k.store.pipes p) moved)
      segment.1 ≠ .endless ∧ WriteEnds len segment := by
  have hrecorded : ∀ isWrite, Waiting k ∧ RecordedOn k p isWrite := by
    intro isWrite
    refine run_recordedOn (boot_waiting hboot)
      (boot_recordedOn hboot p isWrite) ?_ hrun
    intro past rest mid hsplit hmid pid other hpid hother
    rw [husers past rest mid hsplit hmid pid isWrite hpid.2]
    exact (husers past rest mid hsplit hmid other isWrite hother.2).symm
  have hwaiting := (hrecorded false).1
  have hpipe := hwaiting.pipe p
  have hreason : ∀ pid isWrite, k.BlockedOn pid p isWrite →
      (k.store.pipes p).MustWait isWrite := by
    intro pid isWrite hblocked
    apply hpipe.reason isWrite
    rw [(hrecorded isWrite).2 pid hblocked]
    have hrange : pid < maxProcs :=
      hwaiting.lt_maxProcs (by rw [hblocked.1]; decide)
    have hlt : maxProcs < pipeNoWaiter := by decide
    omega
  refine ⟨fun h => ?_, fun h => ?_, fun h => ?_, ?_, ?_, ?_⟩
  · obtain ⟨hempty, hwriters⟩ := hreason reader false h
    exact ⟨hempty, Nat.pos_of_ne_zero hwriters⟩
  · obtain ⟨hfull, hreaders⟩ := hreason writer true h
    exact ⟨hfull, Nat.pos_of_ne_zero hreaders⟩
  · have hempty := (hreason reader false h.1).1
    rw [(hreason writer true h.2).1] at hempty
    exact absurd hempty (by decide)
  · intro len moved hstart
    have hmoved : moved ≤ len := by
      rcases hstart with rfl | ⟨f, hcont⟩
      · exact Nat.zero_le len
      · exact (hwaiting.fit reader _ hcont).2.le
    exact ⟨pipeReadLoop_ends (Nat.lt_succ_self _),
      (pipeReadLoop_move (pipeFuel len moved) hmoved).2⟩
  · intro len src
    exact ⟨pipeWriteLoop_ends src hpipe.inRange (Nat.lt_succ_self _),
      (pipeWriteLoop_move src (pipeFuel len 0) (Nat.zero_le len)).2⟩
  · intro f len moved src hcont
    exact ⟨pipeWriteResume_ends len src hpipe.inRange,
      (pipeWriteResume_move src (hwaiting.fit writer _ hcont).2).2⟩

namespace PipeWaitersWitness

open Machine (exec)

/-- A check on every entry of the table covers every process that is inside
the kernel. -/
theorem insideEnd_of_all {check : Nat → Ref × Bool → Bool} {k : Kernel}
    (hwaiting : Waiting k)
    (hall : (List.range maxProcs).all (fun pid =>
      (k.insideEnd pid).all (check pid)) = true)
    {pid : Nat} {pipeEnd : Ref × Bool} (hinside : k.insideEnd pid = some pipeEnd) :
    check pid pipeEnd = true := by
  obtain ⟨cont, hcont, -⟩ := Option.bind_eq_some_iff.mp hinside
  have hrange := hwaiting.lt_maxProcs (hwaiting.used pid cont hcont)
  have hpid := List.all_eq_true.mp hall pid (List.mem_range.mpr hrange)
  rw [hinside] at hpid
  exact hpid

theorem run_waiting {booted k : Kernel} {labels : List (Event ⊕ Nat)}
    (hboot : boot (fun _ => false) 0x1000 = some booted)
    (hrun : exec Kernel.stepOrWake booted labels = some k) : Waiting k :=
  Machine.exec_invariant (fun _ _ _ => stepOrWake_waiting) (boot_waiting hboot)
    hrun

/-- Process 1 makes a pipe, forks process 2, closes its write end and reads:
it sleeps. -/
def oneReader : List (Event ⊕ Nat) :=
  [.inl (.syscall (.pipe true)), .inl (.syscall (.fork 0x2000)),
    .inl (.syscall (.close 4)), .inl (.syscall (.read 3 true 2))]

/-- Only process 1 is ever inside a pipe operation, a read of pipe 16. -/
def onlyReader (k : Kernel) : Bool :=
  (List.range maxProcs).all fun pid =>
    (k.insideEnd pid).all fun pipeEnd => pid == 1 && pipeEnd == (16, false)

theorem oneReader_run : ∃ booted k : Kernel,
    boot (fun _ => false) 0x1000 = some booted ∧
      exec Kernel.stepOrWake booted oneReader = some k ∧
      k.state 1 = .blocked ∧ k.insideEnd 1 = some (16, false) ∧
      Machine.passes onlyReader Kernel.stepOrWake booted oneReader = true := by
  have hview : ((boot (fun _ => false) 0x1000).bind fun booted =>
      (exec Kernel.stepOrWake booted oneReader).map fun k =>
        (k.state 1, k.insideEnd 1, Machine.passes onlyReader Kernel.stepOrWake
          booted oneReader)) = some (.blocked, some (16, false), true) := by
    decide +kernel
  obtain ⟨booted, hboot, hrest⟩ := Option.bind_eq_some_iff.mp hview
  obtain ⟨k, hrun, hvalues⟩ := Option.map_eq_some_iff.mp hrest
  simp only [Prod.mk.injEq] at hvalues
  exact ⟨booted, k, hboot, hrun, hvalues⟩

theorem one_reader_remembered : ∃ booted k : Kernel,
    boot (fun _ => false) 0x1000 = some booted ∧
      exec Kernel.stepOrWake booted oneReader = some k ∧
      k.BlockedOn 1 16 false ∧ Remembered k 1 16 false := by
  obtain ⟨booted, k, hboot, hrun, hblocked, hinside, hpasses⟩ := oneReader_run
  refine ⟨booted, k, hboot, hrun, ⟨hblocked, hinside⟩, ?_⟩
  apply (remembered_run_iff _ _ oneReader booted hboot).mpr
    (fun past rest mid hsplit hmid p isWrite pid other hpid hother => ?_)
    oneReader [] k (List.append_nil _).symm hrun 1 16 false ⟨hblocked, hinside⟩
  have hwaiting := run_waiting hboot hmid
  have hall := Machine.check_of_passes hpasses hsplit hmid
  have hone := insideEnd_of_all hwaiting hall hpid.2
  have hother' := insideEnd_of_all hwaiting hall hother.2
  simp only [Bool.and_eq_true, beq_iff_eq] at hone hother'
  exact hone.1.trans hother'.1.symm

structure PipeView where
  states : List ProcState
  inside : List (Option (Ref × Bool))
  waiter : Nat
  writers : Nat
  deriving DecidableEq

def pipeView (k : Kernel) : PipeView where
  states := [k.state 1, k.state 2, k.state 3]
  inside := [k.insideEnd 1, k.insideEnd 2, k.insideEnd 3]
  waiter := (k.store.pipes 16).waiter false
  writers := (k.store.pipes 16).writers

/-- Processes 1 and 3 close their write ends and read: process 3 takes the
slot.  Process 2 closes the last write end. -/
def twoReaders : List (Event ⊕ Nat) :=
  [.inl (.syscall (.pipe true)), .inl (.syscall (.fork 0x2000)),
    .inl (.syscall (.fork 0x3000)), .inl (.syscall (.close 4)),
    .inl (.syscall (.read 3 true 1)), .inl (.syscall (.close 4)),
    .inl (.syscall (.read 3 true 1)), .inl (.syscall (.close 4))]

/-- Process 1 is not recorded, and the end of file does not wake it. -/
theorem first_reader_forgotten :
    ((boot (fun _ => false) 0x1000).bind fun booted =>
      (exec Kernel.stepOrWake booted (twoReaders.take 7)).map pipeView) =
      some { states := [.blocked, .running, .blocked]
             inside := [some (16, false), none, some (16, false)]
             waiter := 3
             writers := 1 } ∧
    ((boot (fun _ => false) 0x1000).bind fun booted =>
      (exec Kernel.stepOrWake booted twoReaders).map pipeView) =
      some { states := [.blocked, .running, .ready]
             inside := [some (16, false), none, some (16, false)]
             waiter := pipeNoWaiter
             writers := 0 } := by
  constructor <;> decide +kernel

theorem one_reader_sleeps_with_cause : ∃ booted k : Kernel,
    boot (fun _ => false) 0x1000 = some booted ∧
      exec Kernel.stepOrWake booted oneReader = some k ∧
      k.BlockedOn 1 16 false ∧ (k.store.pipes 16).count = 0 ∧
      0 < (k.store.pipes 16).writers := by
  obtain ⟨booted, k, hboot, hrun, hblocked, hinside, hpasses⟩ := oneReader_run
  refine ⟨booted, k, hboot, hrun, ⟨hblocked, hinside⟩, ?_⟩
  refine (pipe_run_sleeps_with_cause _ _ oneReader booted k 16 1 2 hboot hrun
    fun past rest mid hsplit hmid pid isWrite hpid => ?_).1 ⟨hblocked, hinside⟩
  have hall := Machine.check_of_passes hpasses hsplit hmid
  have hone := insideEnd_of_all (run_waiting hboot hmid) hall hpid
  simp only [Bool.and_eq_true, beq_iff_eq, Prod.mk.injEq, true_and] at hone
  obtain ⟨rfl, rfl⟩ := hone
  rfl

end PipeWaitersWitness

end Orion
