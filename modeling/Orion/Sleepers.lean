/-
Where the processes are that do not run.  A segment of the current process
leaves every other one where it is, unless it is a new one, a ZOMBIE that is
reaped, or the target of `SYS_EXEC`; the current process goes to sleep only at
the end of its own segment.
-/
import Orion.ChildWait

namespace Orion

/-- The event is a `SYS_EXEC` that restarts the process. -/
def restarts (k : Kernel) (pid : Nat) : Event → Bool
  | .syscall (.exec raw entry) =>
      raw % 2 ^ 16 == pid && (sysExec k raw entry).1 == .ret 0 .none
  | _ => false

/-- What a segment does to a process that is not the current one. -/
inductive Fate (k : Kernel) (event : Event) (pid : Nat) (k' : Kernel) :
    Prop where
  | rests (hframe : (k'.procs pid).espKernel = (k.procs pid).espKernel)
      (hstate : k'.state pid = k.state pid ∨
        (k.state pid = .blocked ∧ k'.state pid = .ready))
  | born (hfree : k.state pid = .unused) (hready : k'.state pid = .ready)
      (hframe : (k'.procs pid).espKernel.cont = none)
  | restarted (hexec : restarts k pid event = true)
      (hready : k'.state pid = .ready)
      (hframe : (k'.procs pid).espKernel.cont = none)
  | reaped (hzombie : k.state pid = .zombie) (hgone : k'.state pid = .unused)
      (hframe : (k'.procs pid).espKernel.cont = none)

section Fates

variable {k k' : Kernel} {event : Event} {self pid : Nat}

theorem StirsOff.rests {other : Nat} (hoff : StirsOff other k k')
    (hne : pid ≠ other) : Fate k event pid k' :=
  .rests (hoff.frame pid hne) (hoff.state pid hne)

theorem Effect.fate {cause : Cause} {outcome : Outcome}
    (heffect : Effect self k cause outcome k') (hne : pid ≠ self)
    (hexec : ∀ raw entry, cause ≠ .call (.exec raw entry)) :
    Fate k event pid k' := by
  cases heffect with
  | mild hmild _ => exact .rests (hmild.frame pid) (hmild.state pid)
  | sleeps hleaves _ => exact hleaves.toStirsOff.rests hne
  | exits code => exact (procExit_leaves k self code).toStirsOff.rests hne
  | @forks _ child _ _ _ hforks =>
      by_cases hchild : pid = child
      · subst hchild
        obtain ⟨entry, hframe⟩ := hforks.stack
        exact .born hforks.free hforks.ready (by rw [hframe]; rfl)
      · exact hforks.toStirsOff.rests hchild
  | @restarts raw entry _ _ _ _ _ _ => exact absurd rfl (hexec raw entry)
  | @reaps _ _ child _ _ _ _ _ hgone =>
      by_cases hchild : pid = child
      · subst hchild
        refine .reaped hgone.zombie ?_ ?_
        · rw [Kernel.state, hgone.blank]
          rfl
        · rw [hgone.blank]
          rfl
      · exact hgone.toStirsOff.rests hchild
  | @waits _ request _ _ _ =>
      exact (waitBlock_leaves k self request).toStirsOff.rests hne

theorem sysExec_fate (hframed : Framed k) (raw entry : Nat) :
    Fate k (.syscall (.exec raw entry)) pid (sysExec k raw entry).2 := by
  have hsame : Fate k (.syscall (.exec raw entry)) pid k :=
    .rests rfl (.inl rfl)
  cases hget : procGet k (raw % 2 ^ 16) with
  | none =>
      rw [show (sysExec k raw entry).2 = k by rw [sysExec, hget]; rfl]
      exact hsame
  | some p =>
      obtain ⟨rfl, -, hused⟩ := procGet_eq_some hget
      by_cases hentry : entry = 0
      · rw [show (sysExec k raw entry).2 = k by
          rw [sysExec, hget, hentry]; rfl]
        exact hsame
      have hkernel : (sysExec k raw entry).2 =
          (procExec k (raw % 2 ^ 16) entry).2 := by
        rw [sysExec, hget]
        dsimp only
        rw [if_neg hentry]
        split_ifs <;> rfl
      rw [hkernel]
      rcases procExec_restarts k (raw % 2 ^ 16) entry with
        ⟨-, heq⟩ | ⟨hrunning, hrestarts⟩
      · rw [heq]
        exact hsame
      by_cases hpid : pid = raw % 2 ^ 16
      · subst hpid
        obtain ⟨start, hframe⟩ :=
          hrestarts.stack (hframed.kstack _ hused)
        have hdone : (procExec k (raw % 2 ^ 16) entry).1 = true := by
          unfold procExec
          rw [if_neg hrunning]
        have houtcome : (sysExec k raw entry).1 = .ret 0 .none := by
          rw [sysExec, hget]
          dsimp only
          rw [if_neg hentry, if_pos hdone]
        refine .restarted ?_ hrestarts.ready (by rw [hframe]; rfl)
        simp [restarts, houtcome]
      · exact hrestarts.toStirsOff.rests hpid

/-- A segment of another process. -/
theorem handler_fate (hsound : Sound k) {outcome : Outcome}
    (hhandler : k.handler event = some (outcome, k'))
    (hother : k.currentProc ≠ some pid) : Fate k event pid k' := by
  obtain ⟨self, hcurrent, hhandles⟩ := handler_handles hhandler
  have hne : pid ≠ self := fun h => hother (hcurrent.trans (congrArg some h.symm))
  cases hhandles with
  | timer =>
      have hcalm := timerHandler_calm k
      exact .rests (hcalm.frame pid) (hcalm.state pid)
  | key scancode =>
      have hcalm := keyHandler_calm k scancode
      exact .rests (hcalm.frame pid) (hcalm.state pid)
  | @call call _ _ _ hcall =>
      have hhandled := syscallDispatch_handled hcall
      by_cases hexec : ∃ raw entry, call = .exec raw entry
      · obtain ⟨raw, entry, rfl⟩ := hexec
        have hresult : sysExec k raw entry = (outcome, k') :=
          Option.some.inj hcall
        have hfate := @sysExec_fate k pid hsound.framed raw entry
        rwa [hresult] at hfate
      · refine (hhandled.effect hsound.table hcurrent).fate hne ?_
        rintro raw entry ⟨⟩
        exact hexec ⟨raw, entry, rfl⟩
  | @resume src cont _ _ _ hcall =>
      have hhandled := resumeCall_handled hcall
      have hleaves := resumed_leaves k self cont
      have hself := hsound.table.current self hcurrent
      have hinv := hsound.table.leaves hleaves hself hself
      have heffect := hhandled.effect hinv (hleaves.current.trans hcurrent)
      have hframe := hleaves.frame pid hne
      have hstate : (resumed k self cont).state pid = k.state pid := by
        cases cont with
        | wait request outCode =>
            exact congrArg Pcb.state (Function.update_of_ne hne _ _)
        | _ => rfl
      have hfate := @Effect.fate _ _ (.resume src) self pid _ _ heffect hne
        (by rintro raw entry ⟨⟩)
      cases hfate with
      | rests hframe' hstate' =>
          exact .rests (hframe'.trans hframe) (hstate ▸ hstate')
      | born hfree hready hframe' =>
          exact .born (hstate ▸ hfree) hready hframe'
      | restarted hexec _ _ => cases hexec
      | reaped hzombie hgone hframe' =>
          exact .reaped (hstate ▸ hzombie) hgone hframe'

end Fates

section Segments

variable {k k₁ k' : Kernel} {event : Event} {outcome : Outcome} {self pid : Nat}

/-- What a segment leaves of its own process: the state it had, READY if
something woke or restarted it while it was not RUNNING, or asleep. -/
def SelfAfter (k : Kernel) (self : Nat) (outcome : Outcome) (k' : Kernel) :
    Prop :=
  match outcome with
  | .ret _ _ => k'.state self = k.state self ∨
      (k.state self ≠ .running ∧ k'.state self = .ready)
  | .yield cont => k'.state self = if cont = .exit then .zombie else .blocked

theorem selfAfter_of_woken {value : Int} {reply : Reply}
    (hstate : k'.state self = k.state self ∨
      (k.state self = .blocked ∧ k'.state self = .ready)) :
    SelfAfter k self (.ret value reply) k' := by
  rcases hstate with hsame | ⟨hblocked, hready⟩
  · exact .inl hsame
  · refine .inr ⟨?_, hready⟩
    rw [hblocked]
    decide

theorem Handled.selfAfter {cause : Cause}
    (hhandled : Handled self k cause outcome k') (hinv : TableInv k)
    (hcurrent : k.currentProc = some self) : SelfAfter k self outcome k' := by
  cases hhandled.effect hinv hcurrent with
  | mild hmild _ => exact selfAfter_of_woken (hmild.state self)
  | @sleeps _ cont _ hleaves hcont =>
      have hne : cont ≠ .exit := by
        rintro rfl
        cases hcont
      exact hleaves.ends.trans (if_neg hne).symm
  | exits code => exact (procExit_leaves k self code).ends
  | forks hforks =>
      apply selfAfter_of_woken
      apply hforks.state self
      rintro rfl
      exact hinv.current self hcurrent hforks.free
  | @restarts raw entry _ _ _ _ _ _ =>
      cases hhandled with
      | calm hcalm => exact selfAfter_of_woken (hcalm.state self)
      | reaps hcause => cases hcause
      | @execs _ _ p _ _ hget =>
          rcases procExec_restarts k p entry with ⟨-, hsame⟩ | ⟨hrunning, hagain⟩
          · rw [hsame]
            exact .inl rfl
          · by_cases hself : self = p
            · subst hself
              exact .inr ⟨hrunning, hagain.ready⟩
            · exact selfAfter_of_woken (hagain.toStirsOff.state self hself)
  | @reaps _ _ child _ _ _ _ hchild hgone =>
      exact selfAfter_of_woken
        (hgone.toStirsOff.state self (hinv.child_ne hchild).symm)
  | @waits _ request _ _ _ =>
      exact (waitBlock_leaves k self request).ends.trans
        (if_neg Cont.noConfusion).symm

/-- What the switch at the end of a segment finds. -/
structure Segmented (k : Kernel) (cur : Nat) (outcome : Outcome)
    (k' : Kernel) : Prop where
  sound : Sound k'
  current : k'.currentProc = some cur
  after : SelfAfter k cur outcome k'

theorem Handled.segmented {cause : Cause}
    (hhandled : Handled self k cause outcome k') (hsound : Sound k)
    (hcurrent : k.currentProc = some self) : Segmented k self outcome k' := by
  have heffect := hhandled.effect hsound.table hcurrent
  have hself := hsound.table.current self hcurrent
  exact ⟨⟨heffect.tableInv hsound.table hcurrent,
    heffect.framed hsound.framed hself⟩, heffect.current_eq.trans hcurrent,
    hhandled.selfAfter hsound.table hcurrent⟩

theorem Calm.segmented {value : Int} {reply : Reply} (hcalm : Calm k k')
    (hsound : Sound k) (hcurrent : k.currentProc = some self) :
    Segmented k self (.ret value reply) k' :=
  ⟨⟨hsound.table.stirs hcalm.toStirs, hsound.framed.mild hcalm.toStirs.mild⟩,
    hcalm.current.trans hcurrent, selfAfter_of_woken (hcalm.state self)⟩

theorem handler_segmented (hsound : Sound k)
    (hcurrent : k.currentProc = some self)
    (hhandler : k.handler event = some (outcome, k')) :
    Segmented k self outcome k' := by
  obtain ⟨cur, hcur, hhandles⟩ := handler_handles hhandler
  obtain rfl := Option.some.inj (hcurrent.symm.trans hcur)
  cases hhandles with
  | timer => exact (timerHandler_calm k).segmented hsound hcurrent
  | key scancode => exact (keyHandler_calm k scancode).segmented hsound hcurrent
  | call _ hcall =>
      exact (syscallDispatch_handled hcall).segmented hsound hcurrent
  | @resume _ cont _ _ _ hcall =>
      have hleaves := resumed_leaves k self cont
      have hself := hsound.table.current self hcurrent
      have hsound' : Sound (resumed k self cont) :=
        ⟨hsound.table.leaves hleaves hself hself,
          hsound.framed.leaves hleaves hself⟩
      have hafter := (resumeCall_handled hcall).segmented hsound'
        (hleaves.current.trans hcurrent)
      refine ⟨hafter.sound, hafter.current, ?_⟩
      have hstate := hleaves.ends
      have hresult := hafter.after
      unfold SelfAfter at hresult ⊢
      rwa [hstate] at hresult

/-- A switch changes RUNNING and READY only. -/
theorem Switches.state_iff {esp : Frame} {state : ProcState}
    (hswitch : Switches k esp k') (hrunning : state ≠ .running)
    (hready : state ≠ .ready) :
    k'.state pid = state ↔ k.state pid = state := by
  rcases hswitch.state pid with hsame | ⟨hold, hnew⟩ | ⟨hold, hnew⟩
  · rw [hsame]
  all_goals
    rw [hold, hnew]
    exact ⟨fun h => by simp_all, fun h => by simp_all⟩

/-- Where the processes are after a segment. -/
theorem contOf_settle (hsound : Sound k₁) (outcome : Outcome) (pid : Nat) :
    (settle (outcome, k₁)).contOf pid =
      if k₁.currentProc = some pid then outcome.frame.cont
      else (k₁.procs pid).espKernel.cont :=
  (settle_switches (outcome, k₁)).cont hsound.framed.ready pid

end Segments

/-- Whoever is inside the kernel is in the table, and a ZOMBIE exactly if it is
in `proc_exit`. -/
structure Asleep (k : Kernel) : Prop extends Sound k where
  used : ∀ pid cont, k.contOf pid = some cont → k.state pid ≠ .unused
  zombie : ∀ pid cont, k.contOf pid = some cont →
    (k.state pid = .zombie ↔ cont = .exit)

section Steps

variable {k k' : Kernel} {event : Event} {pid : Nat} {cont : Cont}

/-- Whoever is inside the kernel has been there before, or has gone to sleep
at the end of its own segment. -/
theorem step_inside (hsound : Sound k) (hstep : k.step event = some k')
    (hcont : k'.contOf pid = some cont) :
    (k.currentProc ≠ some pid ∧ k.contOf pid = some cont ∧
      (k'.state pid = .blocked → k.state pid = .blocked) ∧
      (k'.state pid = .zombie ↔ k.state pid = .zombie) ∧
      (k'.state pid = .unused ↔ k.state pid = .unused)) ∨
    (k.currentProc = some pid ∧ ∃ k₁,
      k.handler event = some (.yield cont, k₁) ∧ k' = schedYield k₁ cont ∧
      k'.state pid = if cont = .exit then .zombie else .blocked) := by
  obtain ⟨outcome, k₁, hhandler, rfl⟩ := step_eq_some hstep
  obtain ⟨self, hcurrent, -⟩ := handler_handles hhandler
  have hseg := handler_segmented hsound hcurrent hhandler
  have hswitch := settle_switches (outcome, k₁)
  rw [contOf_settle hseg.sound, hseg.current] at hcont
  by_cases hpid : pid = self
  · subst hpid
    rw [if_pos rfl] at hcont
    cases outcome with
    | ret value reply => cases hcont
    | yield cont' =>
        obtain rfl : cont' = cont := Option.some.inj hcont
        refine .inr ⟨hcurrent, k₁, hhandler, rfl, ?_⟩
        have hafter : k₁.state pid = if cont' = .exit then .zombie
          else .blocked := hseg.after
        rw [hswitch.state_iff]
        · exact hafter
        all_goals split_ifs <;> decide
  · have hne : k.currentProc ≠ some pid := by
      rw [hcurrent]
      exact fun h => hpid (Option.some.inj h).symm
    rw [if_neg fun h => hpid (Option.some.inj h).symm] at hcont
    cases handler_fate hsound hhandler hne with
    | rests hframe hstate =>
        refine .inl ⟨hne, ?_, ?_⟩
        · rw [Kernel.contOf, if_neg hne, ← hframe]
          exact hcont
        · rw [hswitch.state_iff (by decide) (by decide),
            hswitch.state_iff (by decide) (by decide),
            hswitch.state_iff (by decide) (by decide)]
          rcases hstate with hsame | ⟨hblocked, hready⟩
          · rw [hsame]
            exact ⟨id, Iff.rfl, Iff.rfl⟩
          · rw [hblocked, hready]
            exact ⟨fun _ => rfl, by decide, by decide⟩
    | born _ _ hframe => exact absurd (hframe.symm.trans hcont) (by simp)
    | restarted _ _ hframe => exact absurd (hframe.symm.trans hcont) (by simp)
    | reaped _ _ hframe => exact absurd (hframe.symm.trans hcont) (by simp)

theorem step_asleep (hasleep : Asleep k) (hstep : k.step event = some k') :
    Asleep k' := by
  refine ⟨step_sound hasleep.toSound hstep, ?_, ?_⟩
  all_goals
    intro pid cont hcont
    rcases step_inside hasleep.toSound hstep hcont with
      ⟨-, hbefore, -, hzombie, hunused⟩ | ⟨-, -, -, -, hstate⟩
  · rw [ne_eq, hunused]
    exact hasleep.used pid cont hbefore
  · rw [hstate]
    split_ifs <;> decide
  · rw [hzombie]
    exact hasleep.zombie pid cont hbefore
  · rw [hstate]
    split_ifs with hexit
    · exact iff_of_true rfl hexit
    · exact iff_of_false (by decide) hexit

/-- A sleeper stays where it is while others run, unless `SYS_EXEC` moves it
or it is a ZOMBIE. -/
theorem step_stays (hasleep : Asleep k) (hstep : k.step event = some k')
    (hother : k.currentProc ≠ some pid) (hcont : k.contOf pid = some cont)
    (hexit : cont ≠ .exit) (hexec : restarts k pid event = false) :
    k'.contOf pid = some cont := by
  obtain ⟨outcome, k₁, hhandler, rfl⟩ := step_eq_some hstep
  obtain ⟨self, hcurrent, -⟩ := handler_handles hhandler
  have hseg := handler_segmented hasleep.toSound hcurrent hhandler
  have hother' : k₁.currentProc ≠ some pid := by
    rw [hseg.current, ← hcurrent]
    exact hother
  rw [contOf_settle hseg.sound, if_neg hother']
  cases handler_fate hasleep.toSound hhandler hother with
  | rests hframe hstate =>
      rw [Kernel.contOf, if_neg hother] at hcont
      rw [hframe]
      exact hcont
  | born hfree _ _ => exact absurd hfree (hasleep.used pid cont hcont)
  | restarted hagain _ _ =>
      rw [hexec] at hagain
      cases hagain
  | reaped hzombie _ _ =>
      exact absurd ((hasleep.zombie pid cont hcont).mp hzombie) hexit

theorem boot_asleep {refuses : Nat → Bool} {idleEntry : Nat} {k : Kernel}
    (hboot : boot refuses idleEntry = some k) : Asleep k := by
  obtain ⟨hsound, houtside⟩ := boot_sound hboot
  refine ⟨hsound, ?_, ?_⟩
  all_goals
    intro pid cont hcont
    rw [houtside pid] at hcont
    cases hcont

end Steps

end Orion
