/-
What a handler does to the process table, in the terms of the table: a stir, a
process that leaves, a new one, one that starts again, or one that is gone.
-/
import Orion.ProcTable

namespace Orion

/-- Wake-ups at most; the bitmap is not looked at. -/
structure Mild (k k' : Kernel) : Prop where
  kin : ∀ pid, (k'.procs pid).kin = (k.procs pid).kin
  frame : ∀ pid, (k'.procs pid).espKernel = (k.procs pid).espKernel
  state : ∀ pid, k'.state pid = k.state pid ∨
    (k.state pid = .blocked ∧ k'.state pid = .ready)
  current : k'.currentProc = k.currentProc

/-- A segment of `self` up to its return or its `sched_yield`. -/
inductive Effect (self : Nat) (k : Kernel) :
    Cause → Outcome → Kernel → Prop where
  | mild {cause : Cause} {value : Int} {reply : Reply} {k' : Kernel}
      (hmild : Mild k k') (hafter : TableInv k') :
      Effect self k cause (.ret value reply) k'
  | sleeps {cause : Cause} {cont : Cont} {k' : Kernel}
      (hleaves : Leaves k self .blocked k') (hcont : cont.isSleep = true) :
      Effect self k cause (.yield cont) k'
  | exits (code : Int) :
      Effect self k (.call (.exit code)) (.yield .exit) (procExit k self code)
  | forks {entry child : Nat} {value : Int} {reply : Reply} {k' : Kernel}
      (hforks : Forks k self child k') :
      Effect self k (.call (.fork entry)) (.ret value reply) k'
  | restarts {pid entry p : Nat} {value : Int} {reply : Reply} {k' : Kernel}
      (hused : k.state p ≠ .unused) (hrestarts : Restarts k p k') :
      Effect self k (.call (.exec pid entry)) (.ret value reply) k'
  | reaps {cause : Cause} {pid child : Nat} {outCode : Bool} {reply : Reply}
      {k' : Kernel} (hcause : cause.waitsFor = some (pid, outCode))
      (hchild : zombieChild k self pid = some child)
      (hgone : Destroys k child k') :
      Effect self k cause (.ret child reply) k'
  | waits {cause : Cause} {pid : Nat} {outCode : Bool}
      (hcause : cause.waitsFor = some (pid, outCode))
      (hnone : zombieChild k self pid = none) :
      Effect self k cause (.yield (.wait pid outCode)) (waitBlock k self pid)

section Steps

variable {k k' : Kernel} {self : Nat}

theorem Stirs.mild (hstirs : Stirs k k') : Mild k k' :=
  ⟨hstirs.kin, hstirs.frame, hstirs.state, hstirs.current⟩

theorem Mild.state_iff (hmild : Mild k k') {pid : Nat} {state : ProcState}
    (hblocked : state ≠ .blocked) (hready : state ≠ .ready) :
    k'.state pid = state ↔ k.state pid = state := by
  rcases hmild.state pid with hsame | ⟨hold, hnew⟩
  · rw [hsame]
  · rw [hold, hnew]
    exact ⟨fun h => absurd h.symm hready, fun h => absurd h.symm hblocked⟩

theorem procGet_eq_some {pid p : Nat} (hget : procGet k pid = some p) :
    p = pid ∧ pid < maxProcs ∧ k.state pid ≠ .unused := by
  unfold procGet at hget
  split_ifs at hget with hrange hunused
  exact ⟨(Option.some.inj hget).symm, Nat.lt_of_not_le hrange, hunused⟩

/-- The zombie that `proc_wait` finds. -/
theorem zombieChild_eq_some {pid child : Nat}
    (hchild : zombieChild k self pid = some child) :
    child < maxProcs ∧ k.state child = .zombie ∧
      (k.procs child).ppid = (k.procs self).pid ∧
      (pid = pidInvalid ∨ (k.procs child).pid = pid) := by
  unfold zombieChild at hchild
  have hmem := List.mem_of_find?_eq_some hchild
  have hmatch := List.find?_some hchild
  simp only [Bool.and_eq_true, Bool.or_eq_true, beq_iff_eq] at hmatch
  exact ⟨List.mem_range.mp hmem, hmatch.2, hmatch.1.1.2, hmatch.1.2⟩

theorem zombieChild_eq_none {pid : Nat}
    (hnone : zombieChild k self pid = none) {child : Nat}
    (hrange : child < maxProcs) (hzombie : k.state child = .zombie)
    (hparent : (k.procs child).ppid = (k.procs self).pid) :
    ¬ (pid = pidInvalid ∨ (k.procs child).pid = pid) := by
  intro hmatch
  unfold zombieChild at hnone
  have hfalse := List.find?_eq_none.mp hnone child (List.mem_range.mpr hrange)
  apply hfalse
  have hget : (procGet k child).isSome = true := by
    unfold procGet
    rw [if_neg (Nat.not_le.mpr hrange), if_neg (by rw [hzombie]; decide)]
    rfl
  simp only [Bool.and_eq_true, Bool.or_eq_true, beq_iff_eq]
  exact ⟨⟨⟨hget, hparent⟩, hmatch⟩, hzombie⟩

/-- Nobody reaps itself. -/
theorem TableInv.child_ne {pid child : Nat} (hinv : TableInv k)
    (hchild : zombieChild k self pid = some child) : child ≠ self := by
  obtain ⟨-, hzombie, hparent, -⟩ := zombieChild_eq_some hchild
  rw [hinv.pid] at hparent
  have hne := hinv.parent child (by rw [hzombie]; decide)
  rintro rfl
  exact hne hparent

theorem sysOpen_stirs {path : Option (List UInt8)} {flags : UInt32}
    (k : Kernel) (self : Nat) : Stirs k (sysOpen k self path flags).2 := by
  have hset : ∀ store, Stirs k (k.setStore store) := fun store =>
    ⟨fun _ => rfl, fun _ => rfl, fun _ => .inl rfl, rfl, rfl, rfl⟩
  unfold sysOpen
  split
  · exact (Calm.refl k).toStirs
  split
  · exact hset _
  split
  · exact (hset _).trans (wakeAll_calm _ _).toStirs
  · exact withTable_stirs k self _

theorem sysClose_stirs (k : Kernel) (self fd : Nat) :
    Stirs k (sysClose k self fd).2 := by
  unfold sysClose
  split
  · exact (Calm.refl k).toStirs
  · exact withTable_stirs k self _

theorem sysPipe_stirs (k : Kernel) (self : Nat) (buf : Bool) :
    Stirs k (sysPipe k self buf).2 := by
  unfold sysPipe
  dsimp only
  split_ifs
  · split <;> exact withTable_stirs k self _
  · exact (Calm.refl k).toStirs

theorem sysDup2_stirs (k : Kernel) (self oldfd newfd : Nat) :
    Stirs k (sysDup2 k self oldfd newfd).2 := by
  unfold sysDup2
  split
  · exact (Calm.refl k).toStirs
  split_ifs
  · exact (Calm.refl k).toStirs
  · exact (Calm.refl k).toStirs
  · exact (withTable_stirs k self _).trans (withTable_stirs _ self _)

theorem Effect.of_stirs {cause : Cause} {value : Int} {reply : Reply}
    (hinv : TableInv k) (hstirs : Stirs k k') :
    Effect self k cause (.ret value reply) k' :=
  .mild hstirs.mild (hinv.stirs hstirs)

theorem procFork_effect {entry : Nat} {value : Int} {reply : Reply}
    {result : Option Nat × Kernel} (hinv : TableInv k)
    (hself : k.state self ≠ .unused)
    (hfork : procFork k self entry = some result) :
    Effect self k (.call (.fork entry)) (.ret value reply) result.2 := by
  rcases procFork_cases hinv hfork with
    ⟨hafter, hprocs, hcurrent, -⟩ | ⟨child, k₁, hcreates, heq, -⟩
  · refine .mild ⟨?_, ?_, ?_, hcurrent⟩ hafter
    all_goals
      intro pid
      simp only [Kernel.state, hprocs, true_or]
  · rw [heq]
    exact .forks (hcreates.forks hself)

theorem Handled.effect {cause : Cause} {outcome : Outcome}
    (hhandled : Handled self k cause outcome k') (hinv : TableInv k)
    (hcurrent : k.currentProc = some self) :
    Effect self k cause outcome k' := by
  have hself := hinv.current self hcurrent
  cases hhandled with
  | calm hcalm => exact .of_stirs hinv hcalm.toStirs
  | @sleeps _ cont k₁ hcalm hcont =>
      exact .sleeps ((blockSelf_leaves k₁ self).of_stirs hcalm.toStirs) hcont
  | exits code => exact .exits code
  | forks hfork => exact procFork_effect hinv hself hfork
  | @execs pid entry p _ _ hget =>
      obtain ⟨rfl, -, hused⟩ := procGet_eq_some hget
      rcases procExec_restarts k (pid % 2 ^ 16) entry with
        ⟨-, hsame⟩ | ⟨-, hrestarts⟩
      · rw [hsame]
        exact .of_stirs hinv (Calm.refl k).toStirs
      · exact .restarts hused hrestarts
  | @opens path flags _ _ _ hopen =>
      have hstirs := @sysOpen_stirs path flags k self
      rw [hopen] at hstirs
      exact .of_stirs hinv hstirs
  | @closes fd _ _ _ hclose =>
      have hstirs := sysClose_stirs k self fd
      rw [hclose] at hstirs
      exact .of_stirs hinv hstirs
  | @pipes buf _ _ _ hpipe =>
      have hstirs := sysPipe_stirs k self buf
      rw [hpipe] at hstirs
      exact .of_stirs hinv hstirs
  | @dups oldfd newfd _ _ _ hdup =>
      have hstirs := sysDup2_stirs k self oldfd newfd
      rw [hdup] at hstirs
      exact .of_stirs hinv hstirs
  | @reaps _ _ child _ _ _ hcause hchild hdestroy =>
      rw [hinv.pid child]
      exact .reaps hcause hchild (procDestroy_destroys hinv hdestroy)
  | waits hcause hnone => exact .waits hcause hnone

theorem Effect.tableInv {cause : Cause} {outcome : Outcome}
    (heffect : Effect self k cause outcome k') (hinv : TableInv k)
    (hcurrent : k.currentProc = some self) : TableInv k' := by
  have hself := hinv.current self hcurrent
  cases heffect with
  | mild _ hafter => exact hafter
  | sleeps hleaves _ => exact hinv.leaves hleaves hself (by decide)
  | exits code =>
      exact hinv.leaves (procExit_leaves k self code) hself (by decide)
  | forks hforks => exact hforks.inv
  | restarts hused hrestarts => exact hinv.restarts hrestarts hused
  | reaps _ hchild hgone =>
      apply hinv.destroys hgone
      rw [hcurrent]
      exact fun h => hinv.child_ne hchild (Option.some.inj h).symm
  | @waits _ pid _ _ _ =>
      exact hinv.leaves (waitBlock_leaves k self pid) hself (by decide)

theorem Effect.current_eq {cause : Cause} {outcome : Outcome}
    (heffect : Effect self k cause outcome k') :
    k'.currentProc = k.currentProc := by
  cases heffect with
  | mild hmild _ => exact hmild.current
  | sleeps hleaves _ => exact hleaves.current
  | exits code => exact (procExit_leaves k self code).current
  | forks hforks => exact hforks.current
  | restarts _ hrestarts => exact hrestarts.current
  | reaps _ _ hgone => exact hgone.current
  | @waits _ pid _ _ _ => exact (waitBlock_leaves k self pid).current

theorem Leaves.refl (k : Kernel) (self : Nat) :
    Leaves k self (k.state self) k :=
  ⟨(Calm.refl k).toStirs.off self, rfl, rfl, rfl, rfl, rfl, rfl, rfl⟩

theorem resumed_leaves (k : Kernel) (self : Nat) (cont : Cont) :
    Leaves k self (k.state self) (resumed k self cont) := by
  cases cont with
  | wait pid outCode => apply Leaves.setPcb <;> rfl
  | _ => exact Leaves.refl k self

theorem Segment.tableInv {event : Event} (hsegment : Segment k event k')
    (hinv : TableInv k) : TableInv k' := by
  cases hsegment with
  | interrupt hcalm _ hswitch =>
      exact (hinv.stirs hcalm.toStirs).switches hswitch
  | call hcurrent _ hhandled hswitch =>
      exact ((hhandled.effect hinv hcurrent).tableInv hinv hcurrent).switches
        hswitch
  | @resume self _ cont _ _ _ hcurrent _ hhandled hswitch =>
      have hleaves := resumed_leaves k self cont
      have hself := hinv.current self hcurrent
      have hinv' := hinv.leaves hleaves hself hself
      have hcurrent' := hleaves.current.trans hcurrent
      exact ((hhandled.effect hinv' hcurrent').tableInv hinv' hcurrent').switches
        hswitch

end Steps

end Orion
