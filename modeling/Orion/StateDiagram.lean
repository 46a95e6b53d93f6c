/-
The state diagram of a process.  The strict lifecycle machine follows it; the
kernel follows it in every run that restarts no ZOMBIE and in which only
RUNNING processes block or exit.
-/
import Orion.KernelLifecycle

namespace Orion

open Lifecycle

/-- The edges of the documented diagram. -/
def DiagramEdge : ProcState → ProcState → Bool
  | .unused, .embryo => true
  | .embryo, .ready => true
  | .ready, .running => true
  | .running, .ready => true
  | .running, .blocked => true
  | .blocked, .ready => true
  | .running, .zombie => true
  | .zombie, .unused => true
  | _, _ => false

/-- Between the two views every change was an edge, and a ZOMBIE has kept its
exit code or has been reaped. -/
def FollowsDiagram (v w : Lifecycle) : Prop :=
  ∃ new, w.changes = new ++ v.changes ∧
    (∀ change ∈ new, DiagramEdge change.before change.after = true) ∧
    ∀ pid, v.state pid = .zombie →
      (w.state pid = .zombie ∧ w.exitCode pid = v.exitCode pid) ∨
        ⟨pid, .zombie, .unused⟩ ∈ new

namespace FollowsDiagram

variable {u v w : Lifecycle} {pid : Nat}

/-- Whatever leaves states, codes and the record alone follows the diagram. -/
theorem of_eq (hstate : w.state = v.state) (hcode : w.exitCode = v.exitCode)
    (hchanges : w.changes = v.changes) : FollowsDiagram v w := by
  refine ⟨[], hchanges, by simp, ?_⟩
  intro pid hzombie
  rw [hstate, hcode]
  exact .inl ⟨hzombie, rfl⟩

theorem refl (v : Lifecycle) : FollowsDiagram v v := of_eq rfl rfl rfl

theorem trans (hfirst : FollowsDiagram u v) (hsecond : FollowsDiagram v w) :
    FollowsDiagram u w := by
  obtain ⟨new, hnew, hedges, hzombies⟩ := hfirst
  obtain ⟨new', hnew', hedges', hzombies'⟩ := hsecond
  refine ⟨new' ++ new, ?_, ?_, ?_⟩
  · rw [hnew', hnew, List.append_assoc]
  · intro change hchange
    rcases List.mem_append.mp hchange with hlate | hearly
    · exact hedges' change hlate
    · exact hedges change hearly
  · intro pid hzombie
    rcases hzombies pid hzombie with ⟨hstill, hcode⟩ | hreaped
    · rcases hzombies' pid hstill with ⟨hstill', hcode'⟩ | hreaped
      · exact .inl ⟨hstill', hcode'.trans hcode⟩
      · exact .inr (List.mem_append_left new hreaped)
    · exact .inr (List.mem_append_right new' hreaped)

/-- Taking an edge that does not start at ZOMBIE. -/
theorem write {state : ProcState}
    (hedge : DiagramEdge (v.state pid) state = true)
    (halive : v.state pid ≠ .zombie) (code : Int) :
    FollowsDiagram v (v.write pid state code) := by
  have hne : v.state pid ≠ state := by
    intro hsame
    rw [hsame] at hedge
    revert hedge
    cases state <;> decide
  refine ⟨[⟨pid, v.state pid, state⟩], if_neg hne, ?_, ?_⟩
  · intro change hchange
    rw [List.mem_singleton.mp hchange]
    exact hedge
  · intro other hzombie
    have hother : other ≠ pid := by
      rintro rfl
      exact halive hzombie
    exact .inl ⟨(Function.update_of_ne hother _ _).trans hzombie,
      Function.update_of_ne hother _ _⟩

theorem become {state : ProcState}
    (hedge : DiagramEdge (v.state pid) state = true)
    (halive : v.state pid ≠ .zombie) :
    FollowsDiagram v (v.become pid state) :=
  write hedge halive _

theorem reap (hzombie : v.state pid = .zombie) :
    FollowsDiagram v (v.write pid .unused 0) := by
  have hchanges : (v.write pid .unused 0).changes =
      ⟨pid, .zombie, .unused⟩ :: v.changes := by
    rw [Lifecycle.write, hzombie]
    rfl
  refine ⟨[⟨pid, .zombie, .unused⟩], hchanges, ?_, ?_⟩
  · intro change hchange
    rw [List.mem_singleton.mp hchange]
    rfl
  · intro other hother
    by_cases hsame : other = pid
    · exact .inr (hsame ▸ List.mem_singleton.mpr rfl)
    · exact .inl ⟨(Function.update_of_ne hsame _ _).trans hother,
        Function.update_of_ne hsame _ _⟩

theorem enqueue (v : Lifecycle) (pid : Nat) :
    FollowsDiagram v (v.enqueue pid) := by
  unfold Lifecycle.enqueue
  split_ifs
  · exact of_eq rfl rfl rfl
  · exact of_eq rfl rfl rfl

theorem dequeue (v : Lifecycle) (pid : Nat) :
    FollowsDiagram v (v.dequeue pid) := of_eq rfl rfl rfl

/-- Waking a process in a state from which READY is an edge. -/
theorem awaken (hedge : DiagramEdge (v.state pid) .ready = true)
    (halive : v.state pid ≠ .zombie) :
    FollowsDiagram v (v.awaken (some pid)) :=
  (become hedge halive).trans (enqueue _ pid)

end FollowsDiagram

/-- The strict machine follows the diagram. -/
theorem act_followsDiagram {v w : Lifecycle} {action : Act}
    (hact : act true v action = some w) : FollowsDiagram v w := by
  cases action with
  | create pid =>
      obtain ⟨⟨hunused, -⟩, ⟨⟩⟩ := Option.ite_none_right_eq_some.mp hact
      apply FollowsDiagram.write <;> rw [hunused] <;> decide
  | launch pid =>
      obtain ⟨hembryo, ⟨⟩⟩ := Option.ite_none_right_eq_some.mp hact
      apply FollowsDiagram.awaken <;> rw [hembryo] <;> decide
  | wake pid =>
      obtain ⟨hblocked, ⟨⟩⟩ := Option.ite_none_right_eq_some.mp hact
      apply FollowsDiagram.awaken <;> rw [hblocked] <;> decide
  | block pid =>
      obtain ⟨⟨-, hstrict⟩, ⟨⟩⟩ := Option.ite_none_right_eq_some.mp hact
      have hrunning := hstrict rfl
      apply FollowsDiagram.trans _ (FollowsDiagram.dequeue _ pid)
      apply FollowsDiagram.become <;> rw [hrunning] <;> decide
  | exit pid code parent =>
      obtain ⟨⟨⟨-, hstrict⟩, hparent⟩, ⟨⟩⟩ :=
        Option.ite_none_right_eq_some.mp hact
      have hrunning := hstrict rfl
      apply FollowsDiagram.trans _ (FollowsDiagram.dequeue _ pid)
      have hexit : FollowsDiagram v (v.write pid .zombie code) := by
        apply FollowsDiagram.write <;> rw [hrunning] <;> decide
      apply hexit.trans
      cases parent with
      | none => exact FollowsDiagram.refl _
      | some parent =>
          obtain ⟨hne, hblocked⟩ := hparent parent rfl
          have hstate : (v.write pid .zombie code).state parent = .blocked :=
            (Function.update_of_ne hne _ _).trans hblocked
          apply FollowsDiagram.awaken <;> rw [hstate] <;> decide
  | exec pid =>
      obtain ⟨⟨hused, hrunning, hstrict⟩, ⟨⟩⟩ :=
        Option.ite_none_right_eq_some.mp hact
      have hzombie := hstrict rfl
      apply (FollowsDiagram.dequeue v pid).trans
      cases hstate : v.state pid with
      | unused => exact absurd hstate hused
      | running => exact absurd hstate hrunning
      | zombie => exact absurd hstate hzombie
      | ready =>
          -- the state is written again and does not change
          apply FollowsDiagram.trans _ (FollowsDiagram.enqueue _ pid)
          have hself := write_self (v.dequeue pid) pid
          rw [show (v.dequeue pid).state pid = .ready from hstate] at hself
          rw [hself]
          exact FollowsDiagram.refl _
      | embryo =>
          have hstate' : (v.dequeue pid).state pid = .embryo := hstate
          apply FollowsDiagram.awaken <;> rw [hstate'] <;> decide
      | blocked =>
          have hstate' : (v.dequeue pid).state pid = .blocked := hstate
          apply FollowsDiagram.awaken <;> rw [hstate'] <;> decide
  | destroy pid =>
      obtain ⟨hzombie, ⟨⟩⟩ := Option.ite_none_right_eq_some.mp hact
      exact FollowsDiagram.reap hzombie
  | dispatch pid =>
      obtain ⟨⟨hother, hready, -⟩, ⟨⟩⟩ :=
        Option.ite_none_right_eq_some.mp hact
      have hpreempt : FollowsDiagram v v.preempt ∧
          v.preempt.state pid = .ready := by
        unfold preempt
        split
        · exact ⟨FollowsDiagram.refl v, hready⟩
        · rename_i cur hcurrent
          split_ifs with hrunning
          · have hne : pid ≠ cur := by
              rintro rfl
              exact hother hcurrent
            refine ⟨?_, (Function.update_of_ne hne _ _).trans hready⟩
            apply FollowsDiagram.become <;> rw [hrunning] <;> decide
          · exact ⟨FollowsDiagram.refl v, hready⟩
      obtain ⟨hfollows, hstate⟩ := hpreempt
      apply hfollows.trans
      have htake : FollowsDiagram v.preempt (v.preempt.become pid .running) := by
        apply FollowsDiagram.become <;> rw [hstate] <;> decide
      exact htake.trans (FollowsDiagram.of_eq rfl rfl rfl)

theorem Lifecycle.Leads.followsDiagram {v w : Lifecycle}
    (hleads : Leads true v w) : FollowsDiagram v w := by
  obtain ⟨acts, hacts⟩ := hleads
  have hstep : ∀ (u : Lifecycle) (action : Act) (u' : Lifecycle),
      FollowsDiagram v u → act true u action = some u' →
      FollowsDiagram v u' := by
    intro u action u' hfollows hact
    exact hfollows.trans (act_followsDiagram hact)
  exact Machine.exec_invariant hstep (FollowsDiagram.refl v) hacts

/-- The condition on an input: see `Event.permitted`. -/
def Input.permitted (k : Kernel) : Input → Bool
  | .event e => e.permitted k
  | .call _ => true

/-- The kernel restricted to the inputs that meet the condition. -/
def Kernel.stepPermitted : Kernel → Input → Option Kernel :=
  Machine.guarded Input.permitted Kernel.stepInput

theorem kernelCall_followsDiagram {k k' : Kernel} {call : KernelCall}
    (hcall : k.call call = some k') : FollowsDiagram k.view k'.view := by
  cases call with
  | procCreate priority =>
      rw [← Option.some.inj hcall]
      exact (procCreate_leads k priority).followsDiagram
  | procInitFrame pid entry =>
      obtain ⟨pid, -, rfl⟩ := Option.map_eq_some_iff.mp hcall
      rw [view_procInitFrame]
      exact FollowsDiagram.refl _
  | procSetReady pid =>
      obtain ⟨pid, -, hready⟩ := Option.bind_eq_some_iff.mp hcall
      obtain ⟨hembryo, rfl⟩ := procSetReady_eq_some hready
      have hstate : k.view.state pid = .embryo := hembryo
      have hview : (k.setPcb pid { k.procs pid with state := .ready }).view =
          k.view.become pid .ready := by
        apply view_setPcb_become
        rfl
      rw [hview]
      apply FollowsDiagram.become <;> rw [hstate] <;> decide
  | schedAdd pid =>
      obtain ⟨pid, -, rfl⟩ := Option.map_eq_some_iff.mp hcall
      unfold schedAdd
      split_ifs <;> exact FollowsDiagram.of_eq rfl rfl rfl
  | procWake pid =>
      obtain ⟨pid, -, rfl⟩ := Option.map_eq_some_iff.mp hcall
      exact (procWake_wakes k pid).leads.followsDiagram

theorem stepPermitted_followsDiagram {k k' : Kernel} {input : Input}
    (hstep : k.stepPermitted input = some k') :
    FollowsDiagram k.view k'.view := by
  obtain ⟨hpermitted, hstep⟩ := Machine.guarded_eq_some.mp hstep
  cases input with
  | event event => exact (step_leads (fun _ => hpermitted) hstep).followsDiagram
  | call call => exact kernelCall_followsDiagram hstep

theorem run_followsDiagram {k k' : Kernel} {inputs : List Input}
    (hrun : Machine.exec Kernel.stepPermitted k inputs = some k') :
    FollowsDiagram k.view k'.view := by
  have hstep : ∀ (j : Kernel) (input : Input) (j' : Kernel),
      FollowsDiagram k.view j.view → j.stepPermitted input = some j' →
      FollowsDiagram k.view j'.view := by
    intro j input j' hfollows hstep
    exact hfollows.trans (stepPermitted_followsDiagram hstep)
  exact Machine.exec_invariant hstep (FollowsDiagram.refl k.view) hrun

/-- In every run whose inputs meet the condition, every change of a state
field is an edge of the diagram; and from any state reached on, a ZOMBIE stays
one with its exit code until it is reaped. -/
theorem stateDiagram_run (refuses : Nat → Bool) (idleEntry : Nat)
    (inputs later : List Input) (booted k k' : Kernel)
    (hboot : boot refuses idleEntry = some booted)
    (hrun : Machine.exec Kernel.stepPermitted booted inputs = some k)
    (hlater : Machine.exec Kernel.stepPermitted k later = some k') :
    (∀ change ∈ k.changes,
      DiagramEdge change.before change.after = true) ∧
    ∀ pid, k.state pid = .zombie →
      (k'.state pid = .zombie ∧
        (k'.procs pid).exitCode = (k.procs pid).exitCode) ∨
      ⟨pid, .zombie, .unused⟩ ∈
        k'.changes.take (k'.changes.length - k.changes.length) := by
  constructor
  · obtain ⟨new, hnew, hedges, -⟩ :=
      (boot_leads hboot).followsDiagram.trans (run_followsDiagram hrun)
    have hchanges : k.changes = new := hnew.trans (List.append_nil new)
    rw [hchanges]
    exact hedges
  · obtain ⟨new, hnew, -, hzombies⟩ := run_followsDiagram hlater
    have hchanges : k'.changes = new ++ k.changes := hnew
    have htake : k'.changes.take (k'.changes.length - k.changes.length) =
        new := by
      rw [hchanges, List.length_append, Nat.add_sub_cancel,
        List.take_left]
    rw [htake]
    exact hzombies

namespace StateDiagramWitness

/-- Kernel code starts a second process; it runs when the idle process has
used up its seven ticks. -/
def start : List Input :=
  [.call (.procCreate 16), .call (.procInitFrame 2 0x2000),
    .call (.procSetReady 2), .call (.schedAdd 2)] ++
    List.replicate 7 (.event .timer)

/-- Process 2 forks process 3 and sleeps; process 3 exits. -/
def childExits : List Input :=
  [.event (.syscall (.fork 0x3000)), .event (.syscall (.sleep 1)),
    .event (.syscall (.exit 42))]

/-- Process 2 comes back from its sleep. -/
def parentWakes : List Input :=
  List.replicate 7 (.event .timer) ++ [.event (.resume fun _ => 0)]

def restart : Input := .event (.syscall (.exec 3 0x4000))

theorem zombie_run :
    ((boot (fun _ => false) 0x1000).bind fun booted =>
      (Machine.exec Kernel.stepPermitted booted (start ++ childExits)).bind
        fun k => (Machine.exec Kernel.stepPermitted k parentWakes).map
          fun k' => (k.state 3, k'.state 3, (k'.procs 3).exitCode)) =
      some (.zombie, .zombie, 42) := by
  decide +kernel

theorem zombie_keeps_code : ∃ booted k k' : Kernel,
    boot (fun _ => false) 0x1000 = some booted ∧
      Machine.exec Kernel.stepPermitted booted (start ++ childExits) = some k ∧
      Machine.exec Kernel.stepPermitted k parentWakes = some k' ∧
      k.state 3 = .zombie ∧
      (∀ change ∈ k.changes,
        DiagramEdge change.before change.after = true) := by
  obtain ⟨booted, hboot, hrest⟩ := Option.bind_eq_some_iff.mp zombie_run
  obtain ⟨k, hrun, hrest⟩ := Option.bind_eq_some_iff.mp hrest
  obtain ⟨k', hlater, hview⟩ := Option.map_eq_some_iff.mp hrest
  exact ⟨booted, k, k', hboot, hrun, hlater, congrArg Prod.fst hview,
    (stateDiagram_run _ _ _ _ booted k k' hboot hrun hlater).1⟩

/-- `SYS_EXEC` makes a ZOMBIE runnable again. -/
theorem zombie_restarted :
    ((boot (fun _ => false) 0x1000).bind fun booted =>
      (Machine.exec Kernel.stepInput booted
        (start ++ childExits ++ parentWakes ++ [restart])).map fun k =>
          (k.changes.head?, k.state 3)) =
      some (some ⟨3, .zombie, .ready⟩, .ready) ∧
    DiagramEdge .zombie .ready = false := by
  decide +kernel

end StateDiagramWitness

end Orion
