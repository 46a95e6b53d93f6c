/-
Processes inside `proc_wait`.  What the others do leaves a sleeping waiter its
request and its children, and the end of a child it waits for wakes it.
-/
import Orion.PidTable

namespace Orion

/-- The request of `proc_wait` covers the process `pid`. -/
abbrev Covers (request pid : Nat) : Prop := request = pidInvalid ∨ pid = request

/-- Every process in use has a kernel stack with a frame on it. -/
structure Framed (k : Kernel) : Prop where
  kstack : ∀ pid, k.state pid ≠ .unused → (k.procs pid).kstackBase ≠ none
  frame : ∀ pid, k.state pid ≠ .unused → (k.procs pid).espKernel ≠ .null

/-- What a waiter can count on while the others run. -/
structure Spares (w : Nat) (k k' : Kernel) : Prop where
  kin : (k'.procs w).kin = (k.procs w).kin
  blocked : k'.state w = .blocked → k.state w = .blocked
  child : ∀ pid, k.state pid ≠ .unused → (k.procs pid).ppid = w →
    k'.state pid ≠ .unused ∧ (k'.procs pid).ppid = w
  zombie : ∀ pid, k'.state pid = .zombie → (k'.procs pid).ppid = w →
    (k.state pid = .zombie ∧ (k.procs pid).ppid = w) ∨
    ((k.procs w).waiting = true → Covers (k.procs w).waitForPid pid →
      k'.state w ≠ .blocked)

section Frames

variable {k k' : Kernel} {self : Nat}

theorem Framed.off (hframed : Framed k) {pid : Nat} (hoff : StirsOff pid k k')
    (hself : k'.state pid ≠ .unused → (k'.procs pid).kstackBase ≠ none ∧
      (k'.procs pid).espKernel ≠ .null) : Framed k' := by
  have hused : ∀ other, other ≠ pid → k'.state other ≠ .unused →
      k.state other ≠ .unused := fun other hother =>
    mt (hoff.state_iff hother (by decide) (by decide)).mpr
  constructor
  · intro other hother
    by_cases heq : other = pid
    · exact heq ▸ (hself (heq ▸ hother)).1
    · rw [show (k'.procs other).kstackBase = (k.procs other).kstackBase from
        congrArg Kin.kstackBase (hoff.kin other heq)]
      exact hframed.kstack other (hused other heq hother)
  · intro other hother
    by_cases heq : other = pid
    · exact heq ▸ (hself (heq ▸ hother)).2
    · rw [hoff.frame other heq]
      exact hframed.frame other (hused other heq hother)

theorem Framed.mild (hframed : Framed k) (hmild : Mild k k') : Framed k' := by
  have hused : ∀ pid, k'.state pid ≠ .unused → k.state pid ≠ .unused :=
    fun pid => mt (hmild.state_iff (by decide) (by decide)).mpr
  constructor
  · intro pid hpid
    rw [show (k'.procs pid).kstackBase = (k.procs pid).kstackBase from
      congrArg Kin.kstackBase (hmild.kin pid)]
    exact hframed.kstack pid (hused pid hpid)
  · intro pid hpid
    rw [hmild.frame pid]
    exact hframed.frame pid (hused pid hpid)

theorem Framed.leaves (hframed : Framed k) {last : ProcState}
    (hleaves : Leaves k self last k') (hself : k.state self ≠ .unused) :
    Framed k' := by
  apply hframed.off hleaves.toStirsOff
  intro _
  rw [hleaves.kstack, hleaves.stack]
  exact ⟨hframed.kstack self hself, hframed.frame self hself⟩

theorem Effect.framed {cause : Cause} {outcome : Outcome}
    (heffect : Effect self k cause outcome k') (hframed : Framed k)
    (hself : k.state self ≠ .unused) : Framed k' := by
  cases heffect with
  | mild hmild _ => exact hframed.mild hmild
  | sleeps hleaves _ => exact hframed.leaves hleaves hself
  | exits code => exact hframed.leaves (procExit_leaves k self code) hself
  | forks hforks =>
      apply hframed.off hforks.toStirsOff
      intro _
      obtain ⟨entry, hstack⟩ := hforks.stack
      rw [hstack]
      exact ⟨hforks.kstack, Frame.noConfusion⟩
  | restarts hused hrestarts =>
      apply hframed.off hrestarts.toStirsOff
      intro _
      have hkstack := hframed.kstack _ hused
      obtain ⟨entry, hstack⟩ := hrestarts.stack hkstack
      rw [hrestarts.kstack, hstack]
      exact ⟨hkstack, Frame.noConfusion⟩
  | @reaps _ _ child _ _ _ _ _ hgone =>
      apply hframed.off hgone.toStirsOff
      intro hused
      rw [Kernel.state, hgone.blank] at hused
      exact absurd rfl hused
  | @waits _ pid _ _ _ =>
      exact hframed.leaves (waitBlock_leaves k self pid) hself

theorem Framed.switches (hframed : Framed k) {esp : Frame} (hesp : esp ≠ .null)
    (hswitch : Switches k esp k') : Framed k' := by
  have hused : ∀ pid, k'.state pid ≠ .unused → k.state pid ≠ .unused :=
    fun pid => mt (hswitch.unused_iff pid).mpr
  constructor
  · intro pid hpid
    rw [show (k'.procs pid).kstackBase = (k.procs pid).kstackBase from
      congrArg Kin.kstackBase (hswitch.kin pid)]
    exact hframed.kstack pid (hused pid hpid)
  · intro pid hpid
    rcases hswitch.frame pid with hsame | ⟨-, hesp'⟩
    · rw [hsame]
      exact hframed.frame pid (hused pid hpid)
    · rw [hesp']
      exact hesp

theorem Outcome.frame_ne_null (outcome : Outcome) : outcome.frame ≠ .null := by
  cases outcome <;> exact Frame.noConfusion

theorem Framed.ready (hframed : Framed k) (pid : Nat)
    (hready : k.state pid = .ready) : (k.procs pid).espKernel ≠ .null := by
  apply hframed.frame
  rw [hready]
  exact ProcState.noConfusion

end Frames

section Waiters

variable {k k' k'' : Kernel} {self w : Nat}

theorem Spares.trans (hfirst : Spares w k k') (hsecond : Spares w k' k'') :
    Spares w k k'' := by
  refine ⟨hsecond.kin.trans hfirst.kin,
    fun h => hfirst.blocked (hsecond.blocked h), ?_, ?_⟩
  · intro pid hused hparent
    obtain ⟨hused', hparent'⟩ := hfirst.child pid hused hparent
    exact hsecond.child pid hused' hparent'
  · intro pid hzombie hparent
    rcases hsecond.zombie pid hzombie hparent with ⟨hzombie', hparent'⟩ | hwakes
    · rcases hfirst.zombie pid hzombie' hparent' with hold | hwakes
      · exact .inl hold
      · exact .inr fun hwaiting hcovers hblocked =>
          hwakes hwaiting hcovers (hsecond.blocked hblocked)
    · have hwaiting : (k'.procs w).waiting = (k.procs w).waiting :=
        congrArg Kin.waiting hfirst.kin
      have hrequest : (k'.procs w).waitForPid = (k.procs w).waitForPid :=
        congrArg Kin.waitForPid hfirst.kin
      rw [hwaiting, hrequest] at hwakes
      exact .inr hwakes

/-- Nothing happens but wake-ups. -/
theorem Mild.spares (hmild : Mild k k') (w : Nat) : Spares w k k' := by
  have hppid : ∀ pid, (k'.procs pid).ppid = (k.procs pid).ppid :=
    fun pid => congrArg Kin.ppid (hmild.kin pid)
  refine ⟨hmild.kin w, ?_, ?_, ?_⟩
  · intro hblocked
    rcases hmild.state w with hsame | ⟨hold, -⟩
    · exact hsame ▸ hblocked
    · exact hold
  · intro pid hused hparent
    rw [hppid]
    exact ⟨mt (hmild.state_iff (by decide) (by decide)).mp hused, hparent⟩
  · intro pid hzombie hparent
    rw [hppid] at hparent
    exact .inl ⟨(hmild.state_iff (by decide) (by decide)).mp hzombie, hparent⟩

/-- Something happens to one process, which is not the waiter. -/
theorem StirsOff.spares {pid : Nat} (hoff : StirsOff pid k k') (hne : w ≠ pid)
    (hchild : k.state pid ≠ .unused → (k.procs pid).ppid = w →
      k'.state pid ≠ .unused ∧ (k'.procs pid).ppid = w)
    (hzombie : k'.state pid = .zombie → (k'.procs pid).ppid = w →
      (k.state pid = .zombie ∧ (k.procs pid).ppid = w) ∨
      ((k.procs w).waiting = true → Covers (k.procs w).waitForPid pid →
        k'.state w ≠ .blocked)) : Spares w k k' := by
  have hppid : ∀ other, other ≠ pid →
      (k'.procs other).ppid = (k.procs other).ppid :=
    fun other hother => congrArg Kin.ppid (hoff.kin other hother)
  refine ⟨hoff.kin w hne, ?_, ?_, ?_⟩
  · intro hblocked
    rcases hoff.state w hne with hsame | ⟨hold, -⟩
    · exact hsame ▸ hblocked
    · exact hold
  · intro other hused hparent
    by_cases heq : other = pid
    · subst heq
      exact hchild hused hparent
    · rw [hppid other heq]
      exact ⟨mt (hoff.state_iff heq (by decide) (by decide)).mp hused, hparent⟩
  · intro other hdead hparent
    by_cases heq : other = pid
    · subst heq
      exact hzombie hdead hparent
    · rw [hppid other heq] at hparent
      exact .inl ⟨(hoff.state_iff heq (by decide) (by decide)).mp hdead, hparent⟩

theorem Leaves.spares {last : ProcState} (hleaves : Leaves k self last k')
    (hne : w ≠ self) (hused : last ≠ .unused)
    (hzombie : last = .zombie → (k.procs self).ppid = w →
      k.state self = .zombie ∨
      ((k.procs w).waiting = true → Covers (k.procs w).waitForPid self →
        k'.state w ≠ .blocked)) : Spares w k k' := by
  apply hleaves.toStirsOff.spares hne
  · intro _ hparent
    rw [hleaves.ends, hleaves.ppid]
    exact ⟨hused, hparent⟩
  · rw [hleaves.ends, hleaves.ppid]
    exact fun hlast hparent => (hzombie hlast hparent).imp_left (⟨·, hparent⟩)

theorem procWake_state (k : Kernel) (pid : Nat) :
    (procWake k pid).state pid ≠ .blocked := by
  unfold procWake
  split_ifs with hblocked
  · exact hblocked
  · rw [(schedAdd_still _ pid).state, state_setPcb_self]
    exact ProcState.noConfusion

/-- A child that ends wakes a parent that waits for it. -/
theorem procExit_wakes (hinv : TableInv k) (hne : w ≠ self) (code : Int)
    (hparent : (k.procs self).ppid = w) (hwaiting : (k.procs w).waiting = true)
    (hcovers : Covers (k.procs w).waitForPid self)
    (hused : k.state w ≠ .unused) :
    (procExit k self code).state w ≠ .blocked := by
  unfold procExit
  dsimp only
  rw [(schedRemove_still _ self).state]
  have hset : Leaves k self .zombie (k.setPcb self
      { k.procs self with exitCode := code, state := .zombie }) := by
    apply Leaves.setPcb <;> rfl
  generalize k.setPcb self
    { k.procs self with exitCode := code, state := .zombie } = k₁ at hset ⊢
  have hkin := hset.kin w hne
  have hwaiting₁ : (k₁.procs w).waiting = true :=
    (congrArg Kin.waiting hkin).trans hwaiting
  have hrequest₁ : (k₁.procs w).waitForPid = (k.procs w).waitForPid :=
    congrArg Kin.waitForPid hkin
  have hused₁ : k₁.state w ≠ .unused :=
    mt (hset.state_iff hne (by decide) (by decide)).mp hused
  have hrange := hinv.range w hused
  have hget : procGet k₁ w = some w := by
    unfold procGet
    rw [if_neg (Nat.not_le.mpr hrange.2), if_neg hused₁]
  have hmatch : (k₁.procs w).waiting = true ∧
      ((k₁.procs w).waitForPid = pidInvalid ∨
        (k₁.procs w).waitForPid = (k₁.procs self).pid) := by
    rw [hrequest₁, hset.pid, hinv.pid self]
    exact ⟨hwaiting₁, hcovers.imp_right Eq.symm⟩
  unfold wakeParent
  dsimp only
  rw [hset.ppid, hparent, if_neg hrange.ne_reserved, hget]
  dsimp only
  rw [if_pos hmatch]
  exact procWake_state k₁ w

/-- Whatever another process does, a waiter is spared. -/
theorem Effect.spares {cause : Cause} {outcome : Outcome}
    (heffect : Effect self k cause outcome k') (hinv : TableInv k)
    (hframed : Framed k) (hne : w ≠ self) (hcont : (k'.procs w).espKernel.cont ≠ none) :
    Spares w k k' ∧ (k'.procs w).espKernel = (k.procs w).espKernel := by
  cases heffect with
  | mild hmild _ => exact ⟨hmild.spares w, hmild.frame w⟩
  | sleeps hleaves _ =>
      exact ⟨hleaves.spares hne (by decide) (fun h => absurd h (by decide)),
        hleaves.frame w hne⟩
  | exits code =>
      have hleaves := procExit_leaves k self code
      refine ⟨hleaves.spares hne (by decide) ?_, hleaves.frame w hne⟩
      refine fun _ hparent => .inr fun hwaiting hcovers hblocked => ?_
      have hused : k.state w ≠ .unused := by
        rcases hleaves.state w hne with hsame | ⟨hold, -⟩
        · rw [← hsame, hblocked]
          exact ProcState.noConfusion
        · rw [hold]
          exact ProcState.noConfusion
      exact procExit_wakes hinv hne code hparent hwaiting hcovers hused hblocked
  | @forks _ child _ _ _ hforks =>
      have hother : w ≠ child := by
        rintro rfl
        obtain ⟨entry, hstack⟩ := hforks.stack
        rw [hstack] at hcont
        exact hcont rfl
      refine ⟨hforks.toStirsOff.spares hother ?_ ?_, hforks.frame w hother⟩
      · exact fun hused _ => absurd hforks.free hused
      · rw [hforks.ready]
        exact fun h => absurd h ProcState.noConfusion
  | @restarts _ _ p _ _ _ hused hrestarts =>
      have hother : w ≠ p := by
        rintro rfl
        obtain ⟨entry, hstack⟩ := hrestarts.stack (hframed.kstack w hused)
        rw [hstack] at hcont
        exact hcont rfl
      refine ⟨hrestarts.toStirsOff.spares hother ?_ ?_,
        hrestarts.frame w hother⟩
      · rw [hrestarts.ready, hrestarts.samePpid]
        exact fun _ hparent => ⟨ProcState.noConfusion, hparent⟩
      · rw [hrestarts.ready]
        exact fun h => absurd h ProcState.noConfusion
  | @reaps _ _ child _ _ _ _ hchild hgone =>
      have hparent : (k.procs child).ppid = self :=
        (zombieChild_eq_some hchild).2.2.1.trans (hinv.pid self)
      have hother : w ≠ child := by
        rintro rfl
        rw [hgone.blank] at hcont
        exact hcont rfl
      refine ⟨hgone.toStirsOff.spares hother ?_ ?_, hgone.frame w hother⟩
      · exact fun _ h => absurd (h.symm.trans hparent) hne
      · rw [Kernel.state, hgone.blank]
        exact fun h => absurd h ProcState.noConfusion
  | @waits _ pid _ _ _ =>
      have hleaves := waitBlock_leaves k self pid
      exact ⟨hleaves.spares hne (by decide) (fun h => absurd h (by decide)),
        hleaves.frame w hne⟩

theorem Switches.spares {esp : Frame} (hswitch : Switches k esp k') (w : Nat) :
    Spares w k k' := by
  have hppid : ∀ pid, (k'.procs pid).ppid = (k.procs pid).ppid :=
    fun pid => congrArg Kin.ppid (hswitch.kin pid)
  refine ⟨hswitch.kin w, ?_, ?_, ?_⟩
  · intro hblocked
    rcases hswitch.state w with hsame | ⟨-, hnew⟩ | ⟨-, hnew⟩
    · exact hsame ▸ hblocked
    · exact absurd (hnew.symm.trans hblocked) ProcState.noConfusion
    · exact absurd (hnew.symm.trans hblocked) ProcState.noConfusion
  · intro pid hused hparent
    rw [hppid]
    exact ⟨mt (hswitch.unused_iff pid).mp hused, hparent⟩
  · intro pid hzombie hparent
    rw [hppid] at hparent
    rcases hswitch.state pid with hsame | ⟨-, hnew⟩ | ⟨-, hnew⟩
    · exact .inl ⟨hsame ▸ hzombie, hparent⟩
    · exact absurd (hnew.symm.trans hzombie) ProcState.noConfusion
    · exact absurd (hnew.symm.trans hzombie) ProcState.noConfusion

theorem resumed_spares (hne : w ≠ self) (hself : k.state self ≠ .unused)
    (cont : Cont) : Spares w k (resumed k self cont) :=
  (resumed_leaves k self cont).spares hne hself fun h _ => .inl h

/-- `proc_wait` has found no zombie and gone to sleep. -/
structure Enters (w pid : Nat) (k k' : Kernel) : Prop where
  blocked : k'.state w = .blocked
  waiting : (k'.procs w).waiting = true
  request : (k'.procs w).waitForPid = pid
  zombie : ∀ z, k'.state z = .zombie → (k'.procs z).ppid = w → ¬ Covers pid z
  unused : ∀ child, k'.state child = .unused ↔ k.state child = .unused
  ppid : ∀ child, (k'.procs child).ppid = (k.procs child).ppid

theorem blockSelf_kin (k : Kernel) (self : Nat) : ∀ pid,
    ((blockSelf k self).procs pid).kin = (k.procs pid).kin :=
  forall_setPcb (P := fun pid new => new.kin = (k.procs pid).kin) rfl
    fun _ _ => rfl

theorem waitBlock_entry (k : Kernel) (self pid : Nat) :
    ((waitBlock k self pid).procs self).waiting = true ∧
      ((waitBlock k self pid).procs self).waitForPid = pid := by
  have hset := procs_setPcb_self k self { k.procs self with
    waitForPid := pid, waiting := true, wakeupTick := 0 }
  have hkin := (blockSelf_kin _ self self).trans (congrArg Pcb.kin hset)
  exact ⟨congrArg Kin.waiting hkin, congrArg Kin.waitForPid hkin⟩

theorem waitBlock_enters (hinv : TableInv k) (hself : k.state self ≠ .unused)
    {pid : Nat} (hnone : zombieChild k self pid = none) :
    Enters self pid k (waitBlock k self pid) := by
  have hleaves := waitBlock_leaves k self pid
  have hppid : ∀ child, ((waitBlock k self pid).procs child).ppid =
      (k.procs child).ppid := by
    intro child
    by_cases heq : child = self
    · exact heq ▸ hleaves.ppid
    · exact congrArg Kin.ppid (hleaves.kin child heq)
  refine ⟨hleaves.ends, (waitBlock_entry k self pid).1,
    (waitBlock_entry k self pid).2, ?_, ?_, hppid⟩
  · intro z hzombie hparent
    have hne : z ≠ self := by
      rintro rfl
      exact absurd (hleaves.ends.symm.trans hzombie) ProcState.noConfusion
    have hold := (hleaves.state_iff hne (by decide) (by decide)).mp hzombie
    rw [hppid, ← hinv.pid self] at hparent
    have hfree := zombieChild_eq_none hnone (hinv.zombie_range hold).2 hold
      hparent
    rw [hinv.pid z] at hfree
    exact hfree
  · intro child
    by_cases heq : child = self
    · subst heq
      rw [hleaves.ends]
      exact ⟨fun h => absurd h ProcState.noConfusion, fun h => absurd h hself⟩
    · exact hleaves.state_iff heq (by decide) (by decide)

theorem Enters.switches {pid : Nat} {esp : Frame} (henters : Enters w pid k k')
    (hswitch : Switches k' esp k'') : Enters w pid k k'' := by
  have hspares := hswitch.spares w
  refine ⟨?_, (congrArg Kin.waiting hspares.kin).trans henters.waiting,
    (congrArg Kin.waitForPid hspares.kin).trans henters.request, ?_,
    fun child => (hswitch.unused_iff child).trans (henters.unused child),
    fun child => (congrArg Kin.ppid (hswitch.kin child)).trans
      (henters.ppid child)⟩
  · rcases hswitch.state w with hsame | ⟨hold, -⟩ | ⟨hold, -⟩
    · exact hsame.trans henters.blocked
    · exact absurd (henters.blocked.symm.trans hold) ProcState.noConfusion
    · exact absurd (henters.blocked.symm.trans hold) ProcState.noConfusion
  · intro z hzombie hparent
    rw [show (k''.procs z).ppid = (k'.procs z).ppid from
      congrArg Kin.ppid (hswitch.kin z)] at hparent
    rcases hswitch.state z with hsame | ⟨-, hnew⟩ | ⟨-, hnew⟩
    · exact henters.zombie z (hsame ▸ hzombie) hparent
    · exact absurd (hnew.symm.trans hzombie) ProcState.noConfusion
    · exact absurd (hnew.symm.trans hzombie) ProcState.noConfusion

/-- Who is inside `proc_wait` after a segment of `self` has been there before,
or has gone there now. -/
theorem Effect.waiter {cause : Cause} {outcome : Outcome} {pid : Nat}
    {outCode : Bool} (heffect : Effect self k cause outcome k')
    (hinv : TableInv k) (hframed : Framed k)
    (hcurrent : k.currentProc = some self)
    (hswitch : Switches k' outcome.frame k'')
    (hcont : k''.contOf w = some (.wait pid outCode)) :
    (w ≠ self ∧ Spares w k k'' ∧
      (k.procs w).espKernel.cont = some (.wait pid outCode)) ∨
    (w = self ∧ cause.waitsFor = some (pid, outCode) ∧ Enters w pid k k'') := by
  have hself := hinv.current self hcurrent
  have hframed' := heffect.framed hframed hself
  rw [hswitch.cont hframed'.ready, heffect.current_eq, hcurrent] at hcont
  by_cases heq : w = self
  · subst heq
    rw [if_pos rfl] at hcont
    refine .inr ⟨rfl, ?_⟩
    cases heffect with
    | mild hmild _ => cases hcont
    | sleeps hleaves hsleep =>
        cases Option.some.inj hcont
        cases hsleep
    | exits code => cases Option.some.inj hcont
    | forks hforks => cases hcont
    | restarts _ hrestarts => cases hcont
    | reaps _ _ hgone => cases hcont
    | waits hcause hnone =>
        cases Option.some.inj hcont
        exact ⟨hcause, (waitBlock_enters hinv hself hnone).switches hswitch⟩
  · rw [if_neg fun h => heq (Option.some.inj h).symm] at hcont
    have hsome : (k'.procs w).espKernel.cont ≠ none := by
      rw [hcont]
      exact Option.some_ne_none _
    obtain ⟨hspares, hframe⟩ := heffect.spares hinv hframed heq hsome
    exact .inl ⟨heq, hspares.trans (hswitch.spares w), hframe ▸ hcont⟩

/-- The segment begins a call of `proc_wait` with this request. -/
def Event.asks (pid : Nat) (outCode : Bool) : Event → Prop
  | .syscall (.wait raw out) => raw % 2 ^ 16 = pid ∧ out = outCode
  | _ => False

theorem Segment.waiter {event : Event} {pid : Nat} {outCode : Bool}
    (hsegment : Segment k event k') (hinv : TableInv k) (hframed : Framed k)
    (hcont : k'.contOf w = some (.wait pid outCode)) :
    (Spares w k k' ∧ k.contOf w = some (.wait pid outCode)) ∨
    (k.currentProc = some w ∧ Enters w pid k k' ∧
      (event.asks pid outCode ∨ k.contOf w = some (.wait pid outCode))) := by
  have hother : ∀ {self : Nat}, k.currentProc = some self → w ≠ self →
      k.contOf w = (k.procs w).espKernel.cont := by
    intro self hcurrent hne
    rw [Kernel.contOf, hcurrent, if_neg fun h => hne (Option.some.inj h).symm]
  cases hsegment with
  | interrupt hcalm hresume hswitch =>
      rw [hswitch.cont (hframed.mild hcalm.toStirs.mild).ready,
        hcalm.current, hcalm.frame] at hcont
      refine .inl ⟨(hcalm.toStirs.mild.spares w).trans (hswitch.spares w), ?_⟩
      rw [Kernel.contOf, hresume]
      exact hcont
  | @call self call _ _ _ hcurrent _ hhandled hswitch =>
      rcases (hhandled.effect hinv hcurrent).waiter hinv hframed hcurrent
        hswitch hcont with ⟨hne, hspares, hold⟩ | ⟨rfl, hcause, henters⟩
      · exact .inl ⟨hspares, (hother hcurrent hne).trans hold⟩
      · refine .inr ⟨hcurrent, henters, .inl ?_⟩
        cases call with
        | wait raw out =>
            cases hcause
            exact ⟨rfl, rfl⟩
        | _ => cases hcause
  | @resume self _ cont _ _ _ hcurrent hresume hhandled hswitch =>
      have hself := hinv.current self hcurrent
      have hleaves := resumed_leaves k self cont
      have hinv' := hinv.leaves hleaves hself hself
      have hcurrent' := hleaves.current.trans hcurrent
      rcases (hhandled.effect hinv' hcurrent').waiter hinv'
        (hframed.leaves hleaves hself) hcurrent' hswitch hcont with
        ⟨hne, hspares, hold⟩ | ⟨rfl, hcause, henters⟩
      · rw [hleaves.frame w hne] at hold
        exact .inl ⟨(resumed_spares hne hself cont).trans hspares,
          (hother hcurrent hne).trans hold⟩
      · have hcont' : k.contOf w = some cont := by
          rw [Kernel.contOf, hcurrent, if_pos rfl, hresume]
        refine .inr ⟨hcurrent, ⟨henters.blocked, henters.waiting,
          henters.request, henters.zombie, ?_, ?_⟩, .inr ?_⟩
        · intro child
          rw [henters.unused]
          by_cases heq : child = w
          · rw [heq, hleaves.ends]
          · exact hleaves.state_iff heq (by decide) (by decide)
        · intro child
          rw [henters.ppid]
          by_cases heq : child = w
          · rw [heq, hleaves.ppid]
          · exact congrArg Kin.ppid (hleaves.kin child heq)
        · rw [hcont']
          cases cont with
          | wait raw out =>
              cases hcause
              rfl
          | _ => cases hcause

theorem Segment.framed {event : Event} (hsegment : Segment k event k')
    (hinv : TableInv k) (hframed : Framed k) : Framed k' := by
  cases hsegment with
  | interrupt hcalm _ hswitch =>
      exact (hframed.mild hcalm.toStirs.mild).switches Frame.noConfusion hswitch
  | @call self _ outcome _ _ hcurrent _ hhandled hswitch =>
      exact ((hhandled.effect hinv hcurrent).framed hframed
        (hinv.current self hcurrent)).switches outcome.frame_ne_null hswitch
  | @resume self _ cont outcome _ _ hcurrent _ hhandled hswitch =>
      have hself := hinv.current self hcurrent
      have hleaves := resumed_leaves k self cont
      have hinv' := hinv.leaves hleaves hself hself
      have hcurrent' := hleaves.current.trans hcurrent
      exact ((hhandled.effect hinv' hcurrent').framed
        (hframed.leaves hleaves hself)
        (hinv'.current self hcurrent')).switches outcome.frame_ne_null hswitch

end Waiters

/-- The table of a kernel that runs, with every frame in place. -/
structure Sound (k : Kernel) : Prop where
  table : TableInv k
  framed : Framed k

theorem step_sound {k k' : Kernel} {event : Event} (hsound : Sound k)
    (hstep : k.step event = some k') : Sound k' :=
  ⟨(step_segment hstep).tableInv hsound.table,
    (step_segment hstep).framed hsound.table hsound.framed⟩

/-- After the boot sequence nobody is inside the kernel. -/
theorem boot_sound {refuses : Nat → Bool} {idleEntry : Nat} {k : Kernel}
    (hboot : boot refuses idleEntry = some k) :
    Sound k ∧ ∀ pid, k.contOf pid = none := by
  obtain ⟨idle, hboots⟩ := boot_boots hboot
  obtain ⟨entry, hframe⟩ := hboots.frame
  refine ⟨⟨boot_tableInv hboot, fun pid hused => ?_, fun pid hused => ?_⟩,
    fun pid => ?_⟩
  · rw [hboots.eq_of_used hused]
    exact hboots.kstack
  · rw [hboots.eq_of_used hused, hframe]
    exact Frame.noConfusion
  · rw [Kernel.contOf]
    split_ifs
    · exact hboots.resume
    · by_cases heq : pid = idle
      · rw [heq, hframe]
        rfl
      · rw [hboots.blank pid heq]
        rfl

/-- The process `z` is a child of `w` that a `proc_wait` of `w` for `pid`
takes. -/
def Wanted (k : Kernel) (w pid z : Nat) : Prop :=
  (k.procs z).ppid = (k.procs w).pid ∧
    (pid = pidInvalid ∨ (k.procs z).pid = pid)

instance (k : Kernel) (w pid z : Nat) : Decidable (Wanted k w pid z) :=
  inferInstanceAs (Decidable (_ ∧ _))

section Runs

variable {k k' : Kernel} {w pid : Nat}

theorem TableInv.wanted_iff (hinv : TableInv k) {z : Nat} :
    Wanted k w pid z ↔ (k.procs z).ppid = w ∧ Covers pid z := by
  rw [Wanted, hinv.pid w, hinv.pid z]

/-- A sleeper in `proc_wait` has left its request behind, and no child that
has ended fits it. -/
def WaitOk (k : Kernel) (w pid : Nat) : Prop :=
  k.state w = .blocked → (k.procs w).waiting = true ∧
    (k.procs w).waitForPid = pid ∧
    ∀ z, k.state z = .zombie → (k.procs z).ppid = w → ¬ Covers pid z

theorem Spares.waitOk (hspares : Spares w k k') (hok : WaitOk k w pid) :
    WaitOk k' w pid := by
  intro hblocked
  obtain ⟨hwaiting, hrequest, hnone⟩ := hok (hspares.blocked hblocked)
  refine ⟨(congrArg Kin.waiting hspares.kin).trans hwaiting,
    (congrArg Kin.waitForPid hspares.kin).trans hrequest, ?_⟩
  intro z hzombie hparent hcovers
  rcases hspares.zombie z hzombie hparent with ⟨hold, hparent'⟩ | hwakes
  · exact hnone z hold hparent' hcovers
  · exact hwakes hwaiting (hrequest.symm ▸ hcovers) hblocked

theorem Enters.waitOk (henters : Enters w pid k k') : WaitOk k' w pid :=
  fun _ => ⟨henters.waiting, henters.request, henters.zombie⟩

/-- In every state of every run, no process that sleeps in `proc_wait` has a
ZOMBIE child that it waits for. -/
theorem procWait_run_wakes (refuses : Nat → Bool) (idleEntry : Nat)
    (events : List Event) (booted k : Kernel)
    (hboot : boot refuses idleEntry = some booted)
    (hrun : Machine.exec Kernel.step booted events = some k)
    (w pid : Nat) (outCode : Bool) (hblocked : k.state w = .blocked)
    (hinside : k.contOf w = some (.wait pid outCode)) (z : Nat)
    (hzombie : k.state z = .zombie) : ¬ Wanted k w pid z := by
  obtain ⟨hsound, houtside⟩ := boot_sound hboot
  have hstep : ∀ (k : Kernel) (event : Event) (k' : Kernel),
      (Sound k ∧ ∀ w pid outCode, k.contOf w = some (.wait pid outCode) →
        WaitOk k w pid) → k.step event = some k' →
      (Sound k' ∧ ∀ w pid outCode, k'.contOf w = some (.wait pid outCode) →
        WaitOk k' w pid) := by
    rintro k event k' ⟨hsound, hwaits⟩ hstep
    refine ⟨step_sound hsound hstep, fun w pid outCode hcont => ?_⟩
    rcases (step_segment hstep).waiter hsound.table hsound.framed hcont with
      ⟨hspares, hbefore⟩ | ⟨-, henters, -⟩
    · exact hspares.waitOk (hwaits w pid outCode hbefore)
    · exact henters.waitOk
  obtain ⟨hsound', hwaits⟩ := Machine.exec_invariant hstep
    ⟨hsound, fun w pid outCode hcont => by simp [houtside] at hcont⟩ hrun
  rw [hsound'.table.wanted_iff]
  rintro ⟨hparent, hcovers⟩
  exact (hwaits w pid outCode hinside hblocked).2.2 z hzombie hparent hcovers

end Runs

namespace ChildWaitWitness

/-- Process 1 forks 2 and 3 and waits for 2; process 3 exits. -/
def events : List Event :=
  [.syscall (.fork 0x2000), .syscall (.fork 0x3000), .syscall (.wait 2 false),
    .syscall (.exit 0)]

theorem waiting_run :
    ((boot (fun _ => false) 0x1000).bind fun booted =>
      (Machine.exec Kernel.step booted events).map fun k =>
        (k.state 1, k.contOf 1, k.state 3, (k.procs 3).ppid)) =
      some (.blocked, some (.wait 2 false), .zombie, 1) := by
  decide +kernel

theorem waiter_not_lost : ∃ booted k : Kernel,
    boot (fun _ => false) 0x1000 = some booted ∧
      Machine.exec Kernel.step booted events = some k ∧
      k.state 1 = .blocked ∧ k.state 3 = .zombie ∧ ¬ Wanted k 1 2 3 := by
  obtain ⟨booted, hboot, hrest⟩ := Option.bind_eq_some_iff.mp waiting_run
  obtain ⟨k, hrun, hview⟩ := Option.map_eq_some_iff.mp hrest
  simp only [Prod.mk.injEq] at hview
  obtain ⟨hblocked, hinside, hzombie, -⟩ := hview
  exact ⟨booted, k, hboot, hrun, hblocked, hzombie,
    procWait_run_wakes _ _ _ booted k hboot hrun 1 2 false hblocked hinside 3
      hzombie⟩

end ChildWaitWitness

section Children

variable {k k' : Kernel} {w pid : Nat}

/-- There is a process in the table that a `proc_wait` of `w` for `pid` could
take, now or later. -/
def hasChild (k : Kernel) (w pid : Nat) : Bool :=
  (List.range maxProcs).any fun z => k.state z != .unused && Wanted k w pid z

/-- `SYS_WAIT` is called only with such a child. -/
def waitsForChild (k : Kernel) : Event → Bool
  | .syscall (.wait pid _) =>
      match k.currentProc with
      | none => true
      | some self => hasChild k self (pid % 2 ^ 16)
  | _ => true

/-- Nobody sleeps in `proc_wait` for nothing. -/
def NoVainWait (k : Kernel) : Prop :=
  ∀ w pid outCode, k.state w = .blocked →
    k.contOf w = some (.wait pid outCode) →
    ∃ z, k.state z ≠ .unused ∧ Wanted k w pid z

/-- The same for everyone inside `proc_wait`, asleep or not. -/
structure Awaited (k : Kernel) : Prop extends Sound k where
  child : ∀ w pid outCode, k.contOf w = some (.wait pid outCode) →
    ∃ z, k.state z ≠ .unused ∧ (k.procs z).ppid = w ∧ Covers pid z

theorem Sound.hasChild_iff (hsound : Sound k) : hasChild k w pid = true ↔
    ∃ z, k.state z ≠ .unused ∧ (k.procs z).ppid = w ∧ Covers pid z := by
  simp only [hasChild, List.any_eq_true, Bool.and_eq_true, decide_eq_true_eq,
    bne_iff_ne, hsound.table.wanted_iff, List.mem_range]
  constructor
  · rintro ⟨z, -, hused, hwanted⟩
    exact ⟨z, hused, hwanted⟩
  · rintro ⟨z, hused, hwanted⟩
    exact ⟨z, (hsound.table.range z hused).2, hused, hwanted⟩

theorem Awaited.noVainWait (hawaited : Awaited k) : NoVainWait k := by
  intro w pid outCode _ hcont
  obtain ⟨z, hused, hwanted⟩ := hawaited.child w pid outCode hcont
  exact ⟨z, hused, hawaited.table.wanted_iff.mpr hwanted⟩

theorem step_awaited {event : Event} (hawaited : Awaited k)
    (hguard : waitsForChild k event = true) (hstep : k.step event = some k') :
    Awaited k' := by
  refine ⟨step_sound hawaited.toSound hstep, fun w pid outCode hcont => ?_⟩
  rcases (step_segment hstep).waiter hawaited.table hawaited.framed hcont with
    ⟨hspares, hbefore⟩ | ⟨hcurrent, henters, hreason⟩
  · obtain ⟨z, hused, hparent, hcovers⟩ := hawaited.child w pid outCode hbefore
    obtain ⟨hused', hparent'⟩ := hspares.child z hused hparent
    exact ⟨z, hused', hparent', hcovers⟩
  · have hchild : ∃ z, k.state z ≠ .unused ∧ (k.procs z).ppid = w ∧
        Covers pid z := by
      rcases hreason with hasks | hbefore
      · cases event with
        | syscall call =>
            cases call with
            | wait raw out =>
                obtain ⟨rfl, rfl⟩ := hasks
                simp only [waitsForChild, hcurrent] at hguard
                exact hawaited.toSound.hasChild_iff.mp hguard
            | _ => exact hasks.elim
        | _ => exact hasks.elim
      · exact hawaited.child w pid outCode hbefore
    obtain ⟨z, hused, hparent, hcovers⟩ := hchild
    exact ⟨z, mt (henters.unused z).mp hused, (henters.ppid z).trans hparent,
      hcovers⟩

/-- Without such a child `proc_wait` goes to sleep all the same. -/
theorem step_vain {event : Event} (hsound : Sound k)
    (hguard : waitsForChild k event = false) (hstep : k.step event = some k') :
    ¬ NoVainWait k' := by
  unfold waitsForChild at hguard
  split at hguard
  · rename_i raw outCode
    cases hcurrent : k.currentProc with
    | none => simp [hcurrent] at hguard
    | some self =>
        simp only [hcurrent] at hguard
        have hself := hsound.table.current self hcurrent
        have hchildless : ¬ ∃ z, k.state z ≠ .unused ∧
            (k.procs z).ppid = self ∧ Covers (raw % 2 ^ 16) z := by
          rw [← hsound.hasChild_iff, hguard]
          exact Bool.false_ne_true
        have hnone : zombieChild k self (raw % 2 ^ 16) = none := by
          by_contra hsome
          obtain ⟨z, hz⟩ := Option.ne_none_iff_exists'.mp hsome
          obtain ⟨-, hzombie, hwanted⟩ := zombieChild_eq_some hz
          refine hchildless ⟨z, ?_, hsound.table.wanted_iff.mp hwanted⟩
          rw [hzombie]
          exact ProcState.noConfusion
        have hsettle : k' = settle (.yield (.wait (raw % 2 ^ 16) outCode),
            waitBlock k self (raw % 2 ^ 16)) := by
          obtain ⟨caller, result, hcaller, hcall, rfl⟩ := step_syscall hstep
          obtain rfl := Option.some.inj (hcurrent.symm.trans hcaller)
          simp only [syscallDispatch, procWait, hnone, Option.some.injEq] at hcall
          rw [← hcall]
        have hswitch := settle_switches (.yield (.wait (raw % 2 ^ 16) outCode),
          waitBlock k self (raw % 2 ^ 16))
        rw [← hsettle] at hswitch
        have hleaves := waitBlock_leaves k self (raw % 2 ^ 16)
        have henters := (waitBlock_enters hsound.table hself hnone).switches
          hswitch
        have hcont : k'.contOf self =
            some (.wait (raw % 2 ^ 16) outCode) := by
          rw [hswitch.cont (hsound.framed.leaves hleaves hself).ready,
            hleaves.current, hcurrent, if_pos rfl]
          rfl
        intro hgood
        obtain ⟨z, hused, hwanted⟩ := hgood self _ _ henters.blocked hcont
        rw [(step_sound hsound hstep).table.wanted_iff, henters.ppid] at hwanted
        exact hchildless ⟨z, mt (henters.unused z).mpr hused, hwanted⟩
  · cases hguard

end Children

/-- A run is one in which nobody ever sleeps in `proc_wait` for nothing
exactly when every `SYS_WAIT` in it is called with a child to wait for. -/
theorem procWait_run_child_iff (refuses : Nat → Bool) (idleEntry : Nat)
    (events : List Event) (booted k : Kernel)
    (hboot : boot refuses idleEntry = some booted)
    (hrun : Machine.exec Kernel.step booted events = some k) :
    Machine.exec (Machine.guarded waitsForChild Kernel.step) booted events =
      some k ↔
    ∀ past rest mid, events = past ++ rest →
      Machine.exec Kernel.step booted past = some mid → NoVainWait mid := by
  obtain ⟨hsound, houtside⟩ := boot_sound hboot
  have hinit : Awaited booted :=
    ⟨hsound, fun w pid outCode hcont => by simp [houtside] at hcont⟩
  exact Machine.exec_guarded_iff (fun _ => Awaited.noVainWait)
    (fun _ _ _ => step_awaited)
    (fun _ _ _ hawaited => step_vain hawaited.toSound) hinit hrun

namespace VainWaitWitness

/-- Process 1 waits for the child it has forked. -/
def parentWaits : List Event :=
  [.syscall (.fork 0x2000), .syscall (.wait 2 false)]

/-- Process 2 waits for any child, and goes on when nobody else is READY. -/
def childWaits : List Event :=
  [.syscall (.wait 0xFFFF false), .resume fun _ => 0]

theorem parent_run :
    ((boot (fun _ => false) 0x1000).bind fun booted =>
      (Machine.exec (Machine.guarded waitsForChild Kernel.step) booted
        parentWaits).map fun k => (k.state 1, k.contOf 1)) =
      some (.blocked, some (.wait 2 false)) := by
  decide +kernel

theorem parent_has_child : ∃ booted k : Kernel,
    boot (fun _ => false) 0x1000 = some booted ∧
      Machine.exec Kernel.step booted parentWaits = some k ∧
      k.state 1 = .blocked ∧ NoVainWait k := by
  obtain ⟨booted, hboot, hrest⟩ := Option.bind_eq_some_iff.mp parent_run
  obtain ⟨k, hguarded, hview⟩ := Option.map_eq_some_iff.mp hrest
  have hrun := Machine.exec_of_guarded hguarded
  exact ⟨booted, k, hboot, hrun, congrArg Prod.fst hview,
    (procWait_run_child_iff _ _ _ booted k hboot hrun).mp hguarded parentWaits
      [] k (List.append_nil _).symm hrun⟩

/-- Process 2 has no child and sleeps in `proc_wait` for good. -/
theorem childless_sleeps :
    ((boot (fun _ => false) 0x1000).bind fun booted =>
      (Machine.exec Kernel.step booted (parentWaits ++ childWaits)).map fun k =>
        (k.state 2, k.contOf 2, (List.range maxProcs).filter fun z =>
          k.state z != .unused && (k.procs z).ppid == (k.procs 2).pid)) =
      some (.blocked, some (.wait 0xFFFF false), []) := by
  decide +kernel

end VainWaitWitness

end Orion
