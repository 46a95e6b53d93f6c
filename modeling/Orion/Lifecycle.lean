/-
The life of a process, without memory, files and time.  The abstract machine
knows the state and the exit code of every process, who is on the ready queue,
and who is current.  Each of its acts is one way in which the kernel moves a
process.
-/
import Orion.Machine
import Orion.Proc

namespace Orion

@[ext]
structure Lifecycle where
  state : Nat → ProcState
  exitCode : Nat → Int
  queue : Multiset Nat
  current : Option Nat
  changes : List StateChange
  refused : Nat

/-- What a process can go through. -/
inductive Act where
  | create (pid : Nat)
  | launch (pid : Nat)
  | wake (pid : Nat)
  | block (pid : Nat)
  | exit (pid : Nat) (code : Int) (parent : Option Nat)
  | exec (pid : Nat)
  | destroy (pid : Nat)
  | dispatch (pid : Nat)

namespace Lifecycle

variable (v : Lifecycle)

/-- Give a process a state and an exit code. -/
def write (pid : Nat) (state : ProcState) (code : Int) : Lifecycle :=
  { v with
    state := Function.update v.state pid state
    exitCode := Function.update v.exitCode pid code
    changes := if v.state pid = state then v.changes
      else ⟨pid, v.state pid, state⟩ :: v.changes }

/-- Change only the state. -/
def become (pid : Nat) (state : ProcState) : Lifecycle :=
  v.write pid state (v.exitCode pid)

def enqueue (pid : Nat) : Lifecycle :=
  if maxProcs ≤ Multiset.card v.queue then { v with refused := v.refused + 1 }
  else { v with queue := pid ::ₘ v.queue }

def dequeue (pid : Nat) : Lifecycle := { v with queue := v.queue.erase pid }

/-- The current process steps down. -/
def preempt : Lifecycle :=
  match v.current with
  | none => v
  | some cur => if v.state cur = .running then v.become cur .ready else v

/-- A process takes the processor. -/
def takeOver (pid : Nat) : Lifecycle :=
  { v.become pid .running with current := some pid }

/-- A BLOCKED process becomes READY and joins the queue. -/
def awaken : Option Nat → Lifecycle
  | none => v
  | some pid => (v.become pid .ready).enqueue pid

/-- May the process give up the processor to block or to exit?  The strict
machine asks for what the state diagram asks for. -/
def mayLeave (strict : Bool) (pid : Nat) : Prop :=
  v.current = some pid ∧ (strict = true → v.state pid = .running)

/-- May the process be restarted at a new entry point? -/
def mayExec (strict : Bool) (pid : Nat) : Prop :=
  v.state pid ≠ .unused ∧ v.state pid ≠ .running ∧
    (strict = true → v.state pid ≠ .zombie)

instance (strict : Bool) (pid : Nat) : Decidable (v.mayLeave strict pid) :=
  inferInstanceAs (Decidable (_ ∧ _))

instance (strict : Bool) (pid : Nat) : Decidable (v.mayExec strict pid) :=
  inferInstanceAs (Decidable (_ ∧ _))

/-- The abstract machine. -/
def act (strict : Bool) (v : Lifecycle) : Act → Option Lifecycle
  | .create pid =>
      if v.state pid = .unused ∧ pidInit ≤ pid ∧ pid < maxProcs
      then some (v.write pid .embryo 0) else none
  | .launch pid =>
      if v.state pid = .embryo then some (v.awaken (some pid)) else none
  | .wake pid =>
      if v.state pid = .blocked then some (v.awaken (some pid)) else none
  | .block pid =>
      if v.mayLeave strict pid then some ((v.become pid .blocked).dequeue pid)
      else none
  | .exit pid code parent =>
      if v.mayLeave strict pid ∧
          ∀ p ∈ parent, p ≠ pid ∧ v.state p = .blocked
      then some (((v.write pid .zombie code).awaken parent).dequeue pid)
      else none
  | .exec pid =>
      if v.mayExec strict pid then some ((v.dequeue pid).awaken (some pid))
      else none
  | .destroy pid =>
      if v.state pid = .zombie then some (v.write pid .unused 0) else none
  | .dispatch pid =>
      if v.current ≠ some pid ∧ v.state pid = .ready ∧ pid ∈ v.queue
      then some (v.preempt.takeOver pid) else none

/-- Some acts of the machine lead from the first view to the second. -/
def Leads (strict : Bool) (v w : Lifecycle) : Prop :=
  ∃ acts, Machine.exec (act strict) v acts = some w

variable {v} {w : Lifecycle} {strict : Bool}

theorem Leads.refl (v : Lifecycle) : Leads strict v v := ⟨[], rfl⟩

theorem Leads.of_eq (heq : w = v) : Leads strict v w := by
  rw [heq]
  exact Leads.refl v

theorem Leads.trans {u : Lifecycle} (hfirst : Leads strict u v)
    (hsecond : Leads strict v w) : Leads strict u w := by
  obtain ⟨acts, hacts⟩ := hfirst
  obtain ⟨acts', hacts'⟩ := hsecond
  exact ⟨acts ++ acts', Machine.exec_append hacts hacts'⟩

theorem Leads.one (action : Act) (hact : act strict v action = some w) :
    Leads strict v w :=
  ⟨[action], (Machine.exec_cons_eq_some _).mpr ⟨w, hact, rfl⟩⟩

theorem Leads.create {pid : Nat} (hunused : v.state pid = .unused)
    (hlow : pidInit ≤ pid) (hhigh : pid < maxProcs) :
    Leads strict v (v.write pid .embryo 0) :=
  Leads.one (.create pid) (if_pos ⟨hunused, hlow, hhigh⟩)

theorem Leads.launch {pid : Nat} (hembryo : v.state pid = .embryo) :
    Leads strict v (v.awaken (some pid)) :=
  Leads.one (.launch pid) (if_pos hembryo)

theorem Leads.block {pid : Nat} (hleave : v.mayLeave strict pid) :
    Leads strict v ((v.become pid .blocked).dequeue pid) :=
  Leads.one (.block pid) (if_pos hleave)

theorem Leads.exit {pid : Nat} {parent : Option Nat}
    (hleave : v.mayLeave strict pid)
    (hparent : ∀ p ∈ parent, p ≠ pid ∧ v.state p = .blocked) (code : Int) :
    Leads strict v (((v.write pid .zombie code).awaken parent).dequeue pid) :=
  Leads.one (.exit pid code parent) (if_pos ⟨hleave, hparent⟩)

theorem Leads.exec {pid : Nat} (hexec : v.mayExec strict pid) :
    Leads strict v ((v.dequeue pid).awaken (some pid)) :=
  Leads.one (.exec pid) (if_pos hexec)

theorem Leads.destroy {pid : Nat} (hzombie : v.state pid = .zombie) :
    Leads strict v (v.write pid .unused 0) :=
  Leads.one (.destroy pid) (if_pos hzombie)

theorem Leads.dispatch {pid : Nat} (hother : v.current ≠ some pid)
    (hready : v.state pid = .ready) (hmem : pid ∈ v.queue) :
    Leads strict v (v.preempt.takeOver pid) :=
  Leads.one (.dispatch pid) (if_pos ⟨hother, hready, hmem⟩)

/-- Only wake-ups happen between the two views. -/
inductive Wakes : Lifecycle → Lifecycle → Prop where
  | refl (v : Lifecycle) : Wakes v v
  | wake {v w : Lifecycle} (pid : Nat) (hblocked : v.state pid = .blocked)
      (hrest : Wakes (v.awaken (some pid)) w) : Wakes v w

theorem Wakes.of_eq (heq : w = v) : Wakes v w := by
  rw [heq]
  exact Wakes.refl v

theorem enqueue_state (v : Lifecycle) (pid : Nat) :
    (v.enqueue pid).state = v.state := by
  unfold enqueue
  split_ifs <;> rfl

theorem enqueue_current (v : Lifecycle) (pid : Nat) :
    (v.enqueue pid).current = v.current := by
  unfold enqueue
  split_ifs <;> rfl

theorem awaken_state (v : Lifecycle) (pid : Nat) :
    (v.awaken (some pid)).state = Function.update v.state pid .ready :=
  enqueue_state _ pid

theorem Wakes.trans {u : Lifecycle} (hfirst : Wakes u v)
    (hsecond : Wakes v w) : Wakes u w := by
  induction hfirst with
  | refl v => exact hsecond
  | wake pid hblocked _ ih => exact .wake pid hblocked (ih hsecond)

theorem Wakes.leads (hwakes : Wakes v w) : Leads strict v w := by
  induction hwakes with
  | refl v => exact Leads.refl v
  | wake pid hblocked _ ih =>
      exact (Leads.one (.wake pid) (if_pos hblocked)).trans ih

/-- A wake-up leaves every process alone that is not BLOCKED. -/
theorem Wakes.state {pid : Nat} (hwakes : Wakes v w)
    (hstate : v.state pid ≠ .blocked) : w.state pid = v.state pid := by
  induction hwakes with
  | refl v => rfl
  | wake other hblocked _ ih =>
      have hne : pid ≠ other := by
        rintro rfl
        exact hstate hblocked
      rw [awaken_state, Function.update_of_ne hne] at ih
      exact ih hstate

theorem Wakes.current (hwakes : Wakes v w) : w.current = v.current := by
  induction hwakes with
  | refl v => rfl
  | wake pid _ _ ih => exact ih.trans (enqueue_current _ pid)

end Lifecycle

section View

variable (k : Kernel)

/-- The lifecycle view of the kernel. -/
def Kernel.view : Lifecycle where
  state := k.state
  exitCode := fun pid => (k.procs pid).exitCode
  queue := k.readyQueue
  current := k.currentProc
  changes := k.changes
  refused := k.queueFull

theorem view_setPcb (pid : Nat) (pcb : Pcb) :
    (k.setPcb pid pcb).view = k.view.write pid pcb.state pcb.exitCode := by
  apply Lifecycle.ext
  · exact Function.comp_update Pcb.state k.procs pid pcb
  · exact Function.comp_update Pcb.exitCode k.procs pid pcb
  all_goals rfl

/-- Writing other fields of an entry does not show. -/
theorem view_setPcb_of_eq {pid : Nat} {pcb : Pcb}
    (hstate : pcb.state = (k.procs pid).state)
    (hcode : pcb.exitCode = (k.procs pid).exitCode) :
    (k.setPcb pid pcb).view = k.view := by
  rw [view_setPcb, hstate, hcode]
  apply Lifecycle.ext
  · exact Function.update_eq_self pid k.state
  · exact Function.update_eq_self pid fun pid => (k.procs pid).exitCode
  · rfl
  · rfl
  · exact if_pos rfl
  · rfl

/-- Writing the state alone. -/
theorem view_setPcb_become {pid : Nat} {pcb : Pcb}
    (hcode : pcb.exitCode = (k.procs pid).exitCode) :
    (k.setPcb pid pcb).view = k.view.become pid pcb.state := by
  rw [view_setPcb, hcode]
  rfl

theorem view_schedRemove (pid : Nat) :
    (schedRemove k pid).view = k.view.dequeue pid := by
  apply Lifecycle.ext <;> try rfl
  exact Multiset.coe_eq_coe.mpr (SwapRemove.swapRemove_perm pid k.readyQueue)

theorem view_schedAdd {pid : Nat} (hready : k.state pid = .ready) :
    (schedAdd k pid).view = k.view.enqueue pid := by
  have hcard : Multiset.card k.view.queue = k.readyQueue.length :=
    Multiset.coe_card k.readyQueue
  unfold schedAdd Lifecycle.enqueue
  rw [if_neg (not_not.mpr hready), hcard]
  split_ifs
  · rfl
  · apply Lifecycle.ext <;> try rfl
    exact Multiset.coe_eq_coe.mpr (List.perm_append_singleton pid k.readyQueue)

end View

end Orion
