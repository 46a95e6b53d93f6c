/-
Who has forked whom.  Of a parent the process table keeps only the pid, and
pids are handed out again; the genealogy tells apart the processes that have
had one pid.
-/
import Orion.Sleepers

namespace Orion

/-- For each pid, how many forked processes have had it, and who forked the
latest: the pid of that process, and which of those with this pid it was. -/
structure Genealogy where
  life : Nat → Nat
  creator : Nat → Option (Nat × Nat)

def Genealogy.initial : Genealogy := ⟨fun _ => 0, fun _ => none⟩

/-- `proc_fork` by `parent` has made a new process with the pid `child`. -/
def Genealogy.birth (g : Genealogy) (parent child : Nat) : Genealogy where
  life := Function.update g.life child (g.life child + 1)
  creator := Function.update g.creator child (some (parent, g.life parent))

section Births

variable (g : Genealogy) (parent child : Nat)

@[simp] theorem Genealogy.birth_life :
    (g.birth parent child).life child = g.life child + 1 :=
  Function.update_self ..

@[simp] theorem Genealogy.birth_creator :
    (g.birth parent child).creator child = some (parent, g.life parent) :=
  Function.update_self ..

variable {child}

theorem Genealogy.birth_life_of_ne {pid : Nat} (hne : pid ≠ child) :
    (g.birth parent child).life pid = g.life pid :=
  Function.update_of_ne hne ..

theorem Genealogy.birth_creator_of_ne {pid : Nat} (hne : pid ≠ child) :
    (g.birth parent child).creator pid = g.creator pid :=
  Function.update_of_ne hne ..

end Births

/-- The caller of a `proc_fork` that succeeds in this step, and its child. -/
def forked (k : Kernel) : Event → Option (Nat × Nat)
  | .syscall (.fork entry) =>
      k.currentProc.bind fun self =>
        if entry = 0 then none
        else (procFork k self entry).bind fun result =>
          result.1.map fun child => (self, child)
  | _ => none

/-- The pid that a round of `proc_wait` returns. -/
def waitReturns : Option (Outcome × Kernel) → Option Nat
  | some (.ret cpid _, _) => some cpid.toNat
  | _ => none

/-- The caller of a `proc_wait` that returns in this step, and the pid it
returns. -/
def reaped (k : Kernel) : Event → Option (Nat × Nat)
  | .syscall (.wait pid outCode) =>
      k.currentProc.bind fun self =>
        (waitReturns (syscallDispatch k self (.wait pid outCode))).map
          fun child => (self, child)
  | .resume src =>
      match k.currentProc, k.resume with
      | some self, some (.wait pid outCode) =>
          (waitReturns (resumeCall k self src (.wait pid outCode))).map
            fun child => (self, child)
      | _, _ => none
  | _ => none

def Genealogy.after (g : Genealogy) (k : Kernel) (event : Event) : Genealogy :=
  match forked k event with
  | none => g
  | some (parent, child) => g.birth parent child

/-- A step of the kernel that keeps the genealogy as well. -/
def lineageStep (state : Kernel × Genealogy) (event : Event) :
    Option (Kernel × Genealogy) :=
  (state.1.step event).map fun k => (k, state.2.after state.1 event)

/-- A fork is not given a pid that is still the parent of a process in the
table. -/
def forksUnclaimed (state : Kernel × Genealogy) (event : Event) : Bool :=
  match forked state.1 event with
  | none => true
  | some (_, child) => (List.range maxProcs).all fun z =>
      state.1.state z == .unused || (state.1.procs z).ppid != child

/-- A process whose parent's pid is in use was forked by the process that now
has this pid. -/
def Kinship (state : Kernel × Genealogy) : Prop :=
  ∀ z, state.1.state z ≠ .unused →
    state.1.state (state.1.procs z).ppid ≠ .unused →
    state.2.creator z =
      some ((state.1.procs z).ppid, state.2.life (state.1.procs z).ppid)

/-- Processes at most disappear. -/
def Steady (k k' : Kernel) : Prop :=
  ∀ z, k'.state z ≠ .unused →
    k.state z ≠ .unused ∧ (k'.procs z).ppid = (k.procs z).ppid

/-- And those that stay keep their kernel stacks. -/
def Lasting (k k' : Kernel) : Prop :=
  Steady k k' ∧ ∀ z, k'.state z ≠ .unused →
    (k'.procs z).kstackBase = (k.procs z).kstackBase

section Steps

variable {k k' k'' : Kernel} {self : Nat}

theorem Steady.trans (hfirst : Steady k k') (hsecond : Steady k' k'') :
    Steady k k'' := by
  intro z hused
  obtain ⟨hused', hsame⟩ := hsecond z hused
  obtain ⟨hused'', hsame'⟩ := hfirst z hused'
  exact ⟨hused'', hsame.trans hsame'⟩

theorem Lasting.trans (hfirst : Lasting k k') (hsecond : Lasting k' k'') :
    Lasting k k'' :=
  ⟨hfirst.1.trans hsecond.1, fun z hused =>
    (hsecond.2 z hused).trans (hfirst.2 z (hsecond.1 z hused).1)⟩

theorem Mild.lasting (hmild : Mild k k') : Lasting k k' :=
  ⟨fun z hused => ⟨mt (hmild.state_iff (by decide) (by decide)).mpr hused,
    congrArg Kin.ppid (hmild.kin z)⟩,
    fun z _ => congrArg Kin.kstackBase (hmild.kin z)⟩

/-- One entry has changed, but not its parent. -/
theorem StirsOff.steady {pid : Nat} (hoff : StirsOff pid k k')
    (hpid : k'.state pid ≠ .unused →
      k.state pid ≠ .unused ∧ (k'.procs pid).ppid = (k.procs pid).ppid) :
    Steady k k' := by
  intro z hused
  by_cases heq : z = pid
  · rw [heq] at hused ⊢
    exact hpid hused
  · exact ⟨mt (hoff.state_iff heq (by decide) (by decide)).mpr hused,
      congrArg Kin.ppid (hoff.kin z heq)⟩

theorem StirsOff.lasting {pid : Nat} (hoff : StirsOff pid k k')
    (hpid : k'.state pid ≠ .unused →
      k.state pid ≠ .unused ∧ (k'.procs pid).ppid = (k.procs pid).ppid ∧
        (k'.procs pid).kstackBase = (k.procs pid).kstackBase) :
    Lasting k k' := by
  refine ⟨hoff.steady fun hused => ⟨(hpid hused).1, (hpid hused).2.1⟩, ?_⟩
  intro z hused
  by_cases heq : z = pid
  · rw [heq] at hused ⊢
    exact (hpid hused).2.2
  · exact congrArg Kin.kstackBase (hoff.kin z heq)

theorem Leaves.lasting {last : ProcState} (hleaves : Leaves k self last k')
    (hself : k.state self ≠ .unused) : Lasting k k' :=
  hleaves.toStirsOff.lasting fun _ => ⟨hself, hleaves.ppid, hleaves.kstack⟩

theorem Switches.lasting {esp : Frame} (hswitch : Switches k esp k') :
    Lasting k k' :=
  ⟨fun z hused => ⟨mt (hswitch.unused_iff z).mpr hused,
    congrArg Kin.ppid (hswitch.kin z)⟩,
    fun z _ => congrArg Kin.kstackBase (hswitch.kin z)⟩

theorem Effect.lasting {cause : Cause} {outcome : Outcome}
    (heffect : Effect self k cause outcome k')
    (hself : k.state self ≠ .unused)
    (hcause : ∀ entry, cause ≠ .call (.fork entry)) : Lasting k k' := by
  cases heffect with
  | mild hmild _ => exact hmild.lasting
  | sleeps hleaves _ => exact hleaves.lasting hself
  | exits code => exact (procExit_leaves k self code).lasting hself
  | @forks entry => exact absurd rfl (hcause entry)
  | restarts hused hrestarts =>
      exact hrestarts.toStirsOff.lasting fun _ =>
        ⟨hused, hrestarts.samePpid, hrestarts.kstack⟩
  | reaps _ _ hgone =>
      apply hgone.toStirsOff.lasting
      intro hused
      rw [Kernel.state, hgone.blank] at hused
      exact absurd rfl hused
  | @waits _ pid _ _ _ => exact (waitBlock_leaves k self pid).lasting hself

/-- A handler other than that of a fork. -/
theorem handler_lasting {event : Event} {outcome : Outcome} (hinv : TableInv k)
    (hevent : ∀ entry, event ≠ .syscall (.fork entry))
    (hhandler : k.handler event = some (outcome, k')) : Lasting k k' := by
  obtain ⟨self, hcurrent, hhandles⟩ := handler_handles hhandler
  have hself := hinv.current self hcurrent
  cases hhandles with
  | timer => exact (timerHandler_calm k).toStirs.mild.lasting
  | key scancode => exact (keyHandler_calm k scancode).toStirs.mild.lasting
  | call _ hcall =>
      have heffect := (syscallDispatch_handled hcall).effect hinv hcurrent
      refine heffect.lasting hself ?_
      rintro entry ⟨⟩
      exact hevent entry rfl
  | @resume _ cont _ _ _ hcall =>
      have hleaves := resumed_leaves k self cont
      have hinv' := hinv.leaves hleaves hself hself
      have hcurrent' := hleaves.current.trans hcurrent
      have heffect := (resumeCall_handled hcall).effect hinv' hcurrent'
      exact (hleaves.lasting hself).trans (heffect.lasting
        (hinv'.current self hcurrent') fun _ => Cause.noConfusion)

theorem sysFork_forked {entry self : Nat} {outcome : Outcome}
    (hinv : TableInv k) (hcurrent : k.currentProc = some self)
    (hcall : sysFork k self entry = some (outcome, k')) :
    (forked k (.syscall (.fork entry)) = none ∧ Lasting k k') ∨
    ∃ child, forked k (.syscall (.fork entry)) = some (self, child) ∧
      Forks k self child k' := by
  have hself := hinv.current self hcurrent
  simp only [forked, hcurrent, Option.bind_some]
  unfold sysFork at hcall
  split_ifs at hcall ⊢ with hentry
  · obtain ⟨rfl, rfl⟩ := Prod.mk.inj (Option.some.inj hcall)
    exact .inl ⟨rfl, (Calm.refl k).toStirs.mild.lasting⟩
  obtain ⟨⟨value, k₁⟩, hfork, hpair⟩ := Option.map_eq_some_iff.mp hcall
  obtain rfl : k₁ = k' := by
    dsimp only at hpair
    split at hpair <;> exact (Prod.mk.inj hpair).2
  rw [hfork, Option.bind_some]
  rcases procFork_cases hinv hfork with
    ⟨-, hprocs, -, -, hnone⟩ | ⟨child, k₂, hcreates, heq, hsome⟩
  · cases hnone
    refine .inl ⟨rfl, ?_, ?_⟩
    · intro z hused
      rw [Kernel.state, hprocs] at hused
      exact ⟨hused, congrArg (fun procs => (procs z).ppid) hprocs⟩
    · exact fun z _ => congrArg (fun procs => (procs z).kstackBase) hprocs
  · have hforks : Forks k self child k₁ := by
      change k₁ = _ at heq
      rw [heq]
      exact hcreates.forks hself
    rw [hforks.inv.pid] at hsome
    cases hsome
    exact .inr ⟨child, rfl, hforks⟩

/-- A handler makes a new process only by a `proc_fork` of the current one. -/
theorem handler_forked {event : Event} {outcome : Outcome} (hinv : TableInv k)
    (hhandler : k.handler event = some (outcome, k')) :
    (forked k event = none ∧ Lasting k k') ∨
    ∃ self child, forked k event = some (self, child) ∧
      k.state self ≠ .unused ∧ Forks k self child k' := by
  have hother : (∀ entry, event ≠ .syscall (.fork entry)) → Lasting k k' :=
    fun hevent => handler_lasting hinv hevent hhandler
  cases event with
  | syscall call =>
      cases call with
      | fork entry =>
          obtain ⟨self, hcurrent, hhandles⟩ := handler_handles hhandler
          cases hhandles with
          | call _ hcall =>
              rcases sysFork_forked hinv hcurrent hcall with
                hnone | ⟨child, hsome, hforks⟩
              · exact .inl hnone
              · exact .inr ⟨self, child, hsome, hinv.current self hcurrent,
                  hforks⟩
      | _ => exact .inl ⟨rfl, hother fun _ h => by cases h⟩
  | _ => exact .inl ⟨rfl, hother fun _ h => by cases h⟩

theorem step_forked {event : Event} (hinv : TableInv k)
    (hstep : k.step event = some k') :
    (forked k event = none ∧ Steady k k') ∨
    ∃ self child k₁ esp, forked k event = some (self, child) ∧
      k.state self ≠ .unused ∧ Forks k self child k₁ ∧
      Switches k₁ esp k' := by
  obtain ⟨outcome, k₁, hhandler, rfl⟩ := step_eq_some hstep
  have hswitch := settle_switches (outcome, k₁)
  rcases handler_forked hinv hhandler with
    ⟨hnone, hlasting⟩ | ⟨self, child, hsome, hself, hforks⟩
  · exact .inl ⟨hnone, (hlasting.trans hswitch.lasting).1⟩
  · exact .inr ⟨self, child, k₁, _, hsome, hself, hforks, hswitch⟩

end Steps

/-- What holds in every state before a claimed pid is handed out. -/
structure Lineage (state : Kernel × Genealogy) : Prop where
  table : TableInv state.1
  kin : Kinship state
  past : ∀ z p life, state.2.creator z = some (p, life) →
    life ≤ state.2.life p

section Runs

variable {k k' : Kernel} {g : Genealogy} {self child : Nat}

theorem Kinship.steady (hkin : Kinship (k, g)) (hsteady : Steady k k') :
    Kinship (k', g) := by
  intro z hused hparent
  obtain ⟨hused', hsame⟩ := hsteady z hused
  dsimp only at hparent ⊢
  rw [hsame] at hparent ⊢
  exact hkin z hused' (hsteady _ hparent).1

/-- The entries after a fork: the child, whose parent is the caller, and those
from before. -/
theorem Forks.entry {esp : Frame} {k₁ : Kernel} (hforks : Forks k self child k₁)
    (hswitch : Switches k₁ esp k') {z : Nat} (hused : k'.state z ≠ .unused) :
    (z = child ∧ (k'.procs z).ppid = self) ∨
    (z ≠ child ∧ k.state z ≠ .unused ∧
      (k'.procs z).ppid = (k.procs z).ppid) := by
  obtain ⟨hused₁, hsame⟩ := hswitch.lasting.1 z hused
  by_cases heq : z = child
  · exact .inl ⟨heq, by rw [hsame, heq, hforks.ppid]⟩
  · refine .inr ⟨heq, ?_, hsame.trans (congrArg Kin.ppid (hforks.kin z heq))⟩
    exact mt (hforks.state_iff heq (by decide) (by decide)).mpr hused₁

theorem forksUnclaimed_iff (hinv : TableInv k) {event : Event}
    (hforked : forked k event = some (self, child)) :
    forksUnclaimed (k, g) event = true ↔
      ∀ z, k.state z ≠ .unused → (k.procs z).ppid ≠ child := by
  simp only [forksUnclaimed, hforked, List.all_eq_true, List.mem_range,
    Bool.or_eq_true, beq_iff_eq, bne_iff_ne]
  constructor
  · intro hall z hused
    exact (hall z (hinv.range z hused).2).resolve_left hused
  · intro hall z _
    exact or_iff_not_imp_left.mpr (hall z)

theorem lineageStep_eq_some {state next : Kernel × Genealogy} {event : Event}
    (hstep : lineageStep state event = some next) :
    state.1.step event = some next.1 ∧
      next.2 = state.2.after state.1 event := by
  obtain ⟨k', hkernel, rfl⟩ := Option.map_eq_some_iff.mp hstep
  exact ⟨hkernel, rfl⟩

theorem Genealogy.birth_past (hpast : ∀ z p life, g.creator z = some (p, life) →
    life ≤ g.life p) (z p life : Nat)
    (hcreator : (g.birth self child).creator z = some (p, life)) :
    life ≤ (g.birth self child).life p := by
  have hgrows : ∀ p, g.life p ≤ (g.birth self child).life p := by
    intro p
    by_cases heq : p = child
    · rw [heq, Genealogy.birth_life]
      exact Nat.le_succ _
    · rw [Genealogy.birth_life_of_ne g self heq]
  by_cases heq : z = child
  · rw [heq, Genealogy.birth_creator] at hcreator
    obtain ⟨rfl, rfl⟩ := Prod.mk.inj (Option.some.inj hcreator)
    exact hgrows _
  · rw [Genealogy.birth_creator_of_ne g self heq] at hcreator
    exact (hpast z p life hcreator).trans (hgrows p)

theorem Kinship.forks {esp : Frame} {k₁ : Kernel} (hkin : Kinship (k, g))
    (hforks : Forks k self child k₁) (hswitch : Switches k₁ esp k')
    (hself : k.state self ≠ .unused)
    (hunclaimed : ∀ z, k.state z ≠ .unused → (k.procs z).ppid ≠ child) :
    Kinship (k', g.birth self child) := by
  have hne : self ≠ child := fun h => hself (h ▸ hforks.free)
  intro z hused hparent
  dsimp only at hparent ⊢
  rcases hforks.entry hswitch hused with ⟨rfl, hppid⟩ | ⟨hz, hold, hppid⟩
  · rw [hppid, Genealogy.birth_creator, Genealogy.birth_life_of_ne g self hne]
  · have hother := hunclaimed z hold
    rw [hppid] at hparent ⊢
    rw [Genealogy.birth_creator_of_ne g self hz,
      Genealogy.birth_life_of_ne g self hother]
    rcases hforks.entry hswitch hparent with ⟨heq, -⟩ | ⟨-, hparent', -⟩
    · exact absurd heq hother
    · exact hkin z hold hparent'

theorem lineageStep_keeps (state : Kernel × Genealogy) (event : Event)
    (next : Kernel × Genealogy) (hlineage : Lineage state)
    (hguard : forksUnclaimed state event = true)
    (hstep : lineageStep state event = some next) : Lineage next := by
  obtain ⟨k, g⟩ := state
  obtain ⟨k', g'⟩ := next
  obtain ⟨hkernel, rfl⟩ := lineageStep_eq_some hstep
  have hinv := hlineage.table
  have hinv' := (step_segment hkernel).tableInv hinv
  rcases step_forked hinv hkernel with
    ⟨hnone, hsteady⟩ | ⟨self, child, k₁, esp, hsome, hself, hforks, hswitch⟩
  · have hsame : g.after k event = g := by rw [Genealogy.after, hnone]
    rw [hsame]
    exact ⟨hinv', hlineage.kin.steady hsteady, hlineage.past⟩
  · have hbirth : g.after k event = g.birth self child := by
      rw [Genealogy.after, hsome]
    rw [hbirth]
    exact ⟨hinv', hlineage.kin.forks hforks hswitch hself
      ((forksUnclaimed_iff hinv hsome).mp hguard),
      Genealogy.birth_past hlineage.past⟩

/-- The orphans of a pid that is handed out again count as the children of its
new owner. -/
theorem lineageStep_breaks (state : Kernel × Genealogy) (event : Event)
    (next : Kernel × Genealogy) (hlineage : Lineage state)
    (hguard : forksUnclaimed state event = false)
    (hstep : lineageStep state event = some next) : ¬ Kinship next := by
  obtain ⟨k, g⟩ := state
  obtain ⟨k', g'⟩ := next
  obtain ⟨hkernel, rfl⟩ := lineageStep_eq_some hstep
  have hinv := hlineage.table
  rcases step_forked hinv hkernel with
    ⟨hnone, -⟩ | ⟨self, child, k₁, esp, hsome, hself, hforks, hswitch⟩
  · simp only [forksUnclaimed, hnone] at hguard
    cases hguard
  · have hclaimed : ¬ ∀ z, k.state z ≠ .unused → (k.procs z).ppid ≠ child := by
      rw [← forksUnclaimed_iff hinv hsome, hguard]
      exact Bool.false_ne_true
    push Not at hclaimed
    obtain ⟨z, hused, hppid⟩ := hclaimed
    have hne : z ≠ child := fun h => hused (h ▸ hforks.free)
    have hused' : k'.state z ≠ .unused := by
      rwa [Ne, hswitch.unused_iff, hforks.state_iff hne (by decide) (by decide)]
    have hchild' : k'.state child ≠ .unused := by
      rw [Ne, hswitch.unused_iff, hforks.ready]
      exact ProcState.noConfusion
    have hppid' : (k'.procs z).ppid = child := by
      rw [← hppid]
      exact congrArg Kin.ppid ((hswitch.kin z).trans (hforks.kin z hne))
    intro hkin
    have hcreator := hkin z hused' (hppid'.symm ▸ hchild')
    dsimp only at hcreator
    rw [Genealogy.after, hsome, hppid'] at hcreator
    dsimp only at hcreator
    rw [Genealogy.birth_creator_of_ne g self hne, Genealogy.birth_life]
      at hcreator
    exact absurd (hlineage.past z _ _ hcreator) (Nat.not_succ_le_self _)

/-- What `proc_wait` returns is the pid of a ZOMBIE whose parent it takes the
caller for. -/
theorem waitReturns_procWait {pid : Nat} {outCode : Bool} (hinv : TableInv k)
    (hreturns : waitReturns (procWait k self pid outCode) = some child) :
    k.state child = .zombie ∧ (k.procs child).ppid = self := by
  unfold procWait at hreturns
  cases hfound : zombieChild k self pid with
  | none =>
      rw [hfound] at hreturns
      cases hreturns
  | some z =>
      obtain ⟨-, hzombie, hparent, -⟩ := zombieChild_eq_some hfound
      rw [hinv.pid] at hparent
      rw [hfound] at hreturns
      dsimp only at hreturns
      cases hgone : procDestroy k z with
      | none =>
          rw [hgone] at hreturns
          cases hreturns
      | some k' =>
          rw [hgone, hinv.pid] at hreturns
          obtain rfl : z = child := Option.some.inj hreturns
          exact ⟨hzombie, hparent⟩

theorem reaped_child {event : Event} (hinv : TableInv k)
    (hreaped : reaped k event = some (self, child)) :
    k.state self ≠ .unused ∧ k.state child = .zombie ∧
      (k.procs child).ppid = self := by
  unfold reaped at hreaped
  split at hreaped
  · obtain ⟨caller, hcurrent, hwait⟩ := Option.bind_eq_some_iff.mp hreaped
    obtain ⟨z, hreturns, hpair⟩ := Option.map_eq_some_iff.mp hwait
    obtain ⟨rfl, rfl⟩ := Prod.mk.inj hpair
    exact ⟨hinv.current _ hcurrent, waitReturns_procWait hinv hreturns⟩
  · split at hreaped
    · rename_i caller pid outCode hcurrent hresume
      obtain ⟨z, hreturns, hpair⟩ := Option.map_eq_some_iff.mp hreaped
      obtain ⟨rfl, rfl⟩ := Prod.mk.inj hpair
      have hself := hinv.current _ hcurrent
      have hleaves := resumed_leaves k caller (.wait pid outCode)
      obtain ⟨hzombie, hparent⟩ :=
        waitReturns_procWait (hinv.leaves hleaves hself hself) hreturns
      have hzombie' : k.state z = .zombie := by
        by_cases heq : z = caller
        · rw [heq] at hzombie ⊢
          exact hleaves.ends.symm.trans hzombie
        · exact (hleaves.state_iff heq (by decide) (by decide)).mp hzombie
      refine ⟨hself, hzombie', ?_⟩
      rw [← ((hleaves.lasting hself).1 z (by rw [hzombie]; decide)).2]
      exact hparent
    · cases hreaped
  · cases hreaped

end Runs

/-- The boot sequence makes one process, without a parent, and runs it. -/
theorem boot_idle {refuses : Nat → Bool} {idleEntry : Nat} {k : Kernel}
    (hboot : boot refuses idleEntry = some k) :
    ∃ idle, k.currentProc = some idle ∧ ∀ z, k.state z ≠ .unused →
      z = idle ∧ (k.procs z).ppid = pidKernel := by
  obtain ⟨idle, hboots⟩ := boot_boots hboot
  refine ⟨idle, hboots.current, fun z hused => ?_⟩
  obtain rfl := hboots.eq_of_used hused
  exact ⟨rfl, hboots.ppid⟩

theorem boot_lineage {refuses : Nat → Bool} {idleEntry : Nat} {k : Kernel}
    (hboot : boot refuses idleEntry = some k) :
    Lineage (k, Genealogy.initial) := by
  obtain ⟨idle, -, hidle⟩ := boot_idle hboot
  have hinv := boot_tableInv hboot
  refine ⟨hinv, ?_, ?_⟩
  · intro z hused hparent
    dsimp only at hused hparent
    rw [(hidle z hused).2] at hparent
    exact absurd (hinv.range _ hparent).1 (by decide)
  · rintro z p life ⟨⟩

/-- As long as no `proc_fork` is given a pid that is still the parent of a
process in the table, and no longer, the parent of a process is the one that
forked it; and then `proc_wait` reaps only children of the caller. -/
theorem procWait_run_own_child (refuses : Nat → Bool) (idleEntry : Nat)
    (events : List Event) (booted k : Kernel) (g : Genealogy)
    (hboot : boot refuses idleEntry = some booted)
    (hrun : Machine.exec lineageStep (booted, Genealogy.initial) events =
      some (k, g)) :
    (Machine.exec (Machine.guarded forksUnclaimed lineageStep)
        (booted, Genealogy.initial) events = some (k, g) ↔
      ∀ past rest mid, events = past ++ rest →
        Machine.exec lineageStep (booted, Genealogy.initial) past = some mid →
        Kinship mid) ∧
    (Machine.exec (Machine.guarded forksUnclaimed lineageStep)
        (booted, Genealogy.initial) events = some (k, g) →
      ∀ event self child, reaped k event = some (self, child) →
        k.state child = .zombie ∧
          g.creator child = some (self, g.life self)) := by
  have hinit := boot_lineage hboot
  refine ⟨Machine.exec_guarded_iff (fun _ => Lineage.kin) lineageStep_keeps
    lineageStep_breaks hinit hrun, ?_⟩
  intro hguarded event self child hreaped
  have hlineage : Lineage (k, g) := by
    apply Machine.exec_invariant _ hinit hguarded
    intro state event next hlineage hstep
    obtain ⟨hguard, hkernel⟩ := Machine.guarded_eq_some.mp hstep
    exact lineageStep_keeps state event next hlineage hguard hkernel
  obtain ⟨hself, hzombie, hparent⟩ := reaped_child hlineage.table hreaped
  have hcreator := hlineage.kin child (by rw [hzombie]; decide)
    (hparent.symm ▸ hself)
  rw [hparent] at hcreator
  exact ⟨hzombie, hcreator⟩

namespace GenealogyWitness

/-- Process 1 forks 2, process 2 forks 3 and 3 forks 4; process 3 exits. -/
def families : List Event :=
  [.syscall (.fork 0x2000), .syscall (.wait 2 false), .syscall (.fork 0x3000),
    .syscall (.wait 3 false), .syscall (.fork 0x4000), .syscall (.exit 0)]

/-- Process 2 reaps 3 and forks a new process 3, which waits for 4; process 4
exits. -/
def succession : List Event :=
  [.resume fun _ => 0, .syscall (.fork 0x5000), .syscall (.wait 3 false),
    .syscall (.wait 4 false), .syscall (.exit 7)]

theorem family_run :
    ((boot (fun _ => false) 0x1000).bind fun booted =>
      (Machine.exec (Machine.guarded forksUnclaimed lineageStep)
        (booted, Genealogy.initial) families).map fun state =>
          reaped state.1 (.resume fun _ => 0)) = some (some (2, 3)) := by
  decide +kernel

/-- Process 2 is about to reap the child it has forked. -/
theorem family_reaped : ∃ (booted k : Kernel) (g : Genealogy),
    boot (fun _ => false) 0x1000 = some booted ∧
      Machine.exec lineageStep (booted, Genealogy.initial) families =
        some (k, g) ∧
      reaped k (.resume fun _ => 0) = some (2, 3) ∧
      g.creator 3 = some (2, g.life 2) := by
  obtain ⟨booted, hboot, hrest⟩ := Option.bind_eq_some_iff.mp family_run
  obtain ⟨⟨k, g⟩, hguarded, hreaped⟩ := Option.map_eq_some_iff.mp hrest
  have hrun := Machine.exec_of_guarded hguarded
  exact ⟨booted, k, g, hboot, hrun, hreaped,
    ((procWait_run_own_child _ _ _ booted k g hboot hrun).2 hguarded _ _ _
      hreaped).2⟩

/-- The second process 3 is about to reap process 4, which the first one has
forked. -/
theorem stranger_reaped :
    ((boot (fun _ => false) 0x1000).bind fun booted =>
      (Machine.exec lineageStep (booted, Genealogy.initial)
        (families ++ succession)).map fun state =>
          (reaped state.1 (.resume fun _ => 0), state.2.creator 4,
            state.2.life 3)) =
      some (some (3, 4), some (3, 1), 2) := by
  decide +kernel

end GenealogyWitness

end Orion
