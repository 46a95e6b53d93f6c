/-
Every segment of the kernel is a sequence of acts of the lifecycle machine.
The strict machine is reached when the segment keeps to the conditions of
`Event.permitted`.
-/
import Orion.Handlers
import Orion.Lifecycle

namespace Orion

open Lifecycle

section Scheduling

variable (k : Kernel) {strict : Bool}

theorem state_setPcb_self (pid : Nat) (pcb : Pcb) :
    (k.setPcb pid pcb).state pid = pcb.state := by
  simp only [Kernel.state, Kernel.setPcb, Function.update_self]

theorem state_setPcb_of_ne {pid other : Nat} (hne : other ≠ pid) (pcb : Pcb) :
    (k.setPcb pid pcb).state other = k.state other := by
  simp only [Kernel.state, Kernel.setPcb, Function.update_of_ne hne]

/-- Making a process READY and queueing it. -/
theorem view_setPcb_schedAdd {pid : Nat} {pcb : Pcb}
    (hready : pcb.state = .ready)
    (hcode : pcb.exitCode = (k.procs pid).exitCode) :
    (schedAdd (k.setPcb pid pcb) pid).view = k.view.awaken (some pid) := by
  rw [view_schedAdd _ ((state_setPcb_self k pid pcb).trans hready),
    view_setPcb_become k hcode, hready]
  rfl

theorem procWake_wakes (pid : Nat) : Wakes k.view (procWake k pid).view := by
  unfold procWake
  split_ifs with hstate
  · exact Wakes.refl _
  · apply Wakes.wake pid (not_not.mp hstate)
    exact Wakes.of_eq (view_setPcb_schedAdd k rfl rfl)

theorem wakeAll_wakes (pids : List Nat) :
    Wakes k.view (wakeAll k pids).view := by
  induction pids generalizing k with
  | nil => exact Wakes.refl _
  | cons pid rest ih =>
      rw [wakeAll]
      cases procGet k pid with
      | none => exact ih k
      | some pid => exact (procWake_wakes k pid).trans (ih _)

theorem tickScan_wakes (pids : List Nat) :
    Wakes k.view (tickScan k pids).view := by
  induction pids generalizing k with
  | nil => exact Wakes.refl _
  | cons pid rest ih =>
      rw [tickScan]
      split_ifs
      · exact (procWake_wakes k pid).trans (ih _)
      · exact ih k

theorem timerHandler_wakes : Wakes k.view (timerHandler k).view :=
  tickScan_wakes { k with
    tickCount := MachineInt.u32 (k.tickCount + 1)
    tickFlag := true } _

theorem keyHandler_wakes (scancode : UInt8) :
    Wakes k.view (keyHandler k scancode).view :=
  wakeAll_wakes { k with
    keyboard := (keyboardHandler k.keyboard scancode).2 } _

/-- The scan returns an entry of the queue that is READY and not skipped. -/
theorem pickReady_eq_some {skip : Option Nat} {entries : List (Nat × Nat)}
    {best : Option (Nat × Nat)} {pid idx : Nat}
    (hpick : pickReady k skip entries best = some (pid, idx)) :
    best = some (pid, idx) ∨
      (some pid ≠ skip ∧ k.state pid = .ready ∧ (pid, idx) ∈ entries) := by
  induction entries generalizing best with
  | nil => exact .inl hpick
  | cons entry rest ih =>
      obtain ⟨first, firstIdx⟩ := entry
      unfold pickReady at hpick
      dsimp only at hpick
      split_ifs at hpick with hbetter
      · rcases ih hpick with hfirst | ⟨hskip, hready, hmem⟩
        · obtain ⟨rfl, rfl⟩ := Prod.mk.injEq .. ▸ Option.some.inj hfirst
          exact .inr ⟨hbetter.1, hbetter.2.1, List.mem_cons_self⟩
        · exact .inr ⟨hskip, hready, List.mem_cons_of_mem _ hmem⟩
      · rcases ih hpick with hbest | ⟨hskip, hready, hmem⟩
        · exact .inl hbest
        · exact .inr ⟨hskip, hready, List.mem_cons_of_mem _ hmem⟩

theorem pickReady_queue {skip : Option Nat} {pid idx : Nat}
    (hpick : pickReady k skip k.readyQueue.zipIdx none = some (pid, idx)) :
    some pid ≠ skip ∧ k.state pid = .ready ∧ pid ∈ k.view.queue := by
  rcases pickReady_eq_some k hpick with hnone | ⟨hskip, hready, hmem⟩
  · exact absurd hnone.symm (Option.some_ne_none _)
  · exact ⟨hskip, hready, Multiset.mem_coe.mpr (List.fst_mem_of_mem_zipIdx hmem)⟩

theorem write_self (v : Lifecycle) (pid : Nat) :
    v.become pid (v.state pid) = v := by
  apply Lifecycle.ext
  · exact Function.update_eq_self pid v.state
  · exact Function.update_eq_self pid v.exitCode
  · rfl
  · rfl
  · exact if_pos rfl
  · rfl

theorem view_saveCurrent {cur : Nat} (hcurrent : k.currentProc = some cur)
    (esp : Frame) : (saveCurrent k cur esp).view = k.view.preempt := by
  have hview : k.view.current = some cur := hcurrent
  have hpreempt : k.view.preempt = k.view.become cur
      (if k.state cur = .running then .ready else k.state cur) := by
    unfold preempt
    rw [hview]
    by_cases hrunning : k.state cur = .running
    · rw [if_pos hrunning]
      exact if_pos hrunning
    · rw [if_neg hrunning]
      exact (if_neg hrunning).trans (write_self k.view cur).symm
  rw [hpreempt]
  apply view_setPcb_become
  rfl

theorem view_takeOver {next : Nat} {pcb : Pcb} (hstate : pcb.state = .running)
    (hcode : pcb.exitCode = (k.procs next).exitCode) :
    { (k.setPcb next pcb).view with current := some next } =
      k.view.takeOver next := by
  rw [takeOver, view_setPcb_become k hcode, hstate]

theorem view_activate (next idx : Nat) (esp : Frame) :
    (activate k next idx esp).view = k.view.takeOver next := by
  apply view_takeOver <;> rfl

theorem view_countDown (cur : Nat) : (countDown k cur).view = k.view := by
  apply view_setPcb_of_eq <;> rfl

theorem schedExpire_leads {cur : Nat} (hcurrent : k.currentProc = some cur)
    (esp : Frame) : Leads strict k.view (schedExpire k cur esp).view := by
  unfold schedExpire
  split_ifs
  · exact Leads.refl _
  cases hpick : pickReady k (some cur) k.readyQueue.zipIdx none with
  | none =>
      apply Leads.of_eq
      apply view_setPcb_of_eq <;> rfl
  | some pick =>
      obtain ⟨next, idx⟩ := pick
      obtain ⟨hskip, hready, hmem⟩ := pickReady_queue k hpick
      dsimp only
      rw [view_activate, view_saveCurrent k hcurrent]
      exact Leads.dispatch (fun hsame => hskip (hsame.symm.trans hcurrent))
        hready hmem

/-- A call of the scheduler switches to a READY process or changes nothing. -/
theorem schedSwitchEsp_leads (esp : Frame) :
    Leads strict k.view (schedSwitchEsp k esp).view := by
  unfold schedSwitchEsp
  split_ifs
  · exact Leads.refl _
  dsimp only
  split
  · exact Leads.refl _
  · rename_i cur hcurrent
    have hview := view_countDown
      { k with resume := esp.cont, tickFlag := false } cur
    have hleads := @schedExpire_leads (countDown
      { k with resume := esp.cont, tickFlag := false } cur) strict cur
      hcurrent esp
    rw [hview] at hleads
    exact hleads

theorem view_schedForceSwitch : (schedForceSwitch k).view = k.view := by
  unfold schedForceSwitch
  dsimp only
  split
  · rfl
  · apply view_setPcb_of_eq <;> rfl

theorem schedYield_leads (cont : Cont) :
    Leads strict k.view (schedYield k cont).view := by
  rw [← view_schedForceSwitch k]
  exact schedSwitchEsp_leads (schedForceSwitch k) (.kernel cont)

end Scheduling

section Processes

variable {k : Kernel} {strict : Bool}

theorem pidCandidates_bounds
    {hint : { hint : Nat // pidInit ≤ hint ∧ hint < maxProcs }} {pid : Nat}
    (hmem : pid ∈ pidCandidates hint.val) : pidInit ≤ pid ∧ pid < maxProcs := by
  have hlow := hint.property.1
  have hhigh := hint.property.2
  rw [pidCandidates, List.mem_append, List.mem_range'_1,
    List.mem_range'_1] at hmem
  omega

theorem pidAlloc_cases (k : Kernel) :
    pidAlloc k = (none, k) ∨ ∃ pid k', pidAlloc k = (some pid, k') ∧
      pidInit ≤ pid ∧ pid < maxProcs ∧ k'.procs = k.procs ∧
      k'.view = k.view := by
  unfold pidAlloc
  cases hfind : (pidCandidates k.pidSearchHint.val).find? fun pid =>
      !WordBitmap.test k.pidBitmap pid with
  | none => exact .inl rfl
  | some pid =>
      obtain ⟨hlow, hhigh⟩ :=
        pidCandidates_bounds (List.mem_of_find?_eq_some hfind)
      exact .inr ⟨pid, _, rfl, hlow, hhigh, rfl, rfl⟩

theorem view_pidFree (k : Kernel) (pid : Nat) :
    (pidFree k pid).view = k.view := by
  unfold pidFree
  split_ifs <;> rfl

theorem procCreate_leads (k : Kernel) (priority : Nat) :
    Leads strict k.view (procCreate k priority).2.view := by
  unfold procCreate
  rcases pidAlloc_cases k with hnone | ⟨pid, k', hsome, hlow, hhigh, -, hview⟩
  · rw [hnone]
    exact Leads.refl _
  rw [hsome, ← hview]
  dsimp only
  split_ifs with hunused
  · exact Leads.of_eq (view_pidFree k' pid)
  split
  · exact Leads.of_eq (view_pidFree _ pid)
  · rw [view_setPcb]
    exact Leads.create (not_not.mp hunused) hlow hhigh

theorem procCreate_current (k : Kernel) (priority : Nat) :
    (procCreate k priority).2.currentProc = k.currentProc := by
  have hfree (k : Kernel) (pid : Nat) :
      (pidFree k pid).currentProc = k.currentProc :=
    congrArg Lifecycle.current (view_pidFree k pid)
  unfold procCreate
  rcases pidAlloc_cases k with hnone | ⟨pid, k', hsome, -, -, -, hview⟩
  · rw [hnone]
  have hcurrent : k'.currentProc = k.currentProc :=
    congrArg Lifecycle.current hview
  rw [hsome]
  dsimp only
  split_ifs
  · exact (hfree k' pid).trans hcurrent
  split
  · exact (hfree _ pid).trans hcurrent
  · exact hcurrent

theorem withTable_wakes (k : Kernel) (pid : Nat)
    (result : List Nat × Store × FdTable) :
    Wakes k.view (withTable k pid result).view := by
  have hview : ((k.setStore result.2.1).setPcb pid
      { k.procs pid with fdTable := result.2.2 }).view = k.view := by
    apply view_setPcb_of_eq <;> rfl
  rw [← hview]
  exact wakeAll_wakes _ result.1

theorem view_procInitFrame (k : Kernel) (pid entry : Nat) :
    (procInitFrame k pid entry).view = k.view := by
  unfold procInitFrame
  split_ifs
  · rfl
  · apply view_setPcb_of_eq <;> rfl

theorem procDestroy_leads {k' : Kernel} {pid : Nat}
    (hdestroy : procDestroy k pid = some k') : Leads strict k.view k'.view := by
  unfold procDestroy at hdestroy
  split_ifs at hdestroy with hstate
  have hzombie : k.view.state pid = .zombie := not_not.mp hstate
  rw [← Option.some.inj hdestroy]
  have hwakes : Wakes k.view (closeFiles (k.setStore
      (k.store.kfreeOption (k.procs pid).kstackBase)) pid).view :=
    withTable_wakes _ pid _
  have hstays := @Wakes.state _ _ pid hwakes (by rw [hzombie]; decide)
  apply hwakes.leads.trans
  rw [view_setPcb, view_pidFree]
  exact Leads.destroy (hstays.trans hzombie)

theorem procSetReady_schedAdd_leads {k' : Kernel} {pid : Nat}
    (hready : procSetReady k pid = some k') :
    Leads strict k.view (schedAdd k' pid).view := by
  obtain ⟨hembryo, rfl⟩ := procSetReady_eq_some hready
  have hview : (schedAdd (k.setPcb pid
      { k.procs pid with state := .ready }) pid).view =
      k.view.awaken (some pid) := by
    apply view_setPcb_schedAdd <;> rfl
  rw [hview]
  exact Leads.launch hembryo

theorem procSetReady_schedAdd_current {k' : Kernel} {pid : Nat}
    (hready : procSetReady k pid = some k') :
    (schedAdd k' pid).currentProc = k.currentProc := by
  obtain ⟨-, rfl⟩ := procSetReady_eq_some hready
  unfold schedAdd
  split_ifs <;> rfl

theorem adoptChild_wakes (k : Kernel) (self child : Nat) :
    Wakes k.view (adoptChild k self child).view := by
  have hparent : (k.setPcb child
      { k.procs child with ppid := (k.procs self).pid }).view = k.view := by
    apply view_setPcb_of_eq <;> rfl
  -- close the fresh descriptors, then share the parent's
  have hclose := withTable_wakes (k.setPcb child
    { k.procs child with ppid := (k.procs self).pid }) child
  rw [hparent] at hclose
  exact (hclose _).trans (withTable_wakes _ child _)

theorem procFork_leads {self entry : Nat} {result : Option Nat × Kernel}
    (hfork : procFork k self entry = some result) :
    Leads strict k.view result.2.view := by
  unfold procFork at hfork
  have hcreate := @procCreate_leads strict k (k.procs self).priority
  rcases hnew : procCreate k (k.procs self).priority with ⟨_ | child, k₁⟩
  · rw [hnew] at hfork hcreate
    rw [← Option.some.inj hfork]
    exact hcreate
  rw [hnew] at hfork hcreate
  obtain ⟨k₂, hready, rfl⟩ := Option.map_eq_some_iff.mp hfork
  apply hcreate.trans
  apply (adoptChild_wakes k₁ self child).leads.trans
  apply (Leads.of_eq (view_procInitFrame _ child entry)).trans
  exact procSetReady_schedAdd_leads hready

theorem procExec_leads {pid : Nat} (hused : k.state pid ≠ .unused)
    (hstrict : strict = true → k.state pid ≠ .zombie) (entry : Nat) :
    Leads strict k.view (procExec k pid entry).2.view := by
  unfold procExec
  split_ifs with hrunning
  · exact Leads.refl _
  have hframe := view_procInitFrame (schedRemove k pid) pid entry
  have hleads := Leads.exec (v := k.view) ⟨hused, hrunning, hstrict⟩
  rw [← view_schedRemove, ← hframe] at hleads
  apply hleads.trans
  apply Leads.of_eq
  apply view_setPcb_schedAdd <;> rfl

end Processes

section Leaving

/-- The caller is current, and RUNNING if the strict machine asks for it. -/
structure MayLeave (strict : Bool) (k : Kernel) (pid : Nat) : Prop where
  current : k.currentProc = some pid
  running : strict = true → k.state pid = .running

variable {k : Kernel} {strict : Bool} {self : Nat}

theorem MayLeave.of_wakes {k' : Kernel} (hleave : MayLeave strict k self)
    (hwakes : Wakes k.view k'.view) : MayLeave strict k' self := by
  constructor
  · exact hwakes.current.trans hleave.current
  · intro hstrict
    have hrunning : k.view.state self = .running := hleave.running hstrict
    have hstays := @Wakes.state _ _ self hwakes (by rw [hrunning]; decide)
    exact hstays.trans hrunning

theorem blockSelf_leads (hleave : MayLeave strict k self) :
    Leads strict k.view (blockSelf k self).view := by
  have hview : (blockSelf k self).view =
      (k.view.become self .blocked).dequeue self := by
    rw [blockSelf, view_schedRemove]
    congr 1
    apply view_setPcb_become
    rfl
  rw [hview]
  exact Leads.block ⟨hleave.current, hleave.running⟩

/-- Other fields of the own entry may be written before blocking. -/
theorem setPcb_blockSelf_leads (hleave : MayLeave strict k self) {pcb : Pcb}
    (hstate : pcb.state = (k.procs self).state)
    (hcode : pcb.exitCode = (k.procs self).exitCode) :
    Leads strict k.view (blockSelf (k.setPcb self pcb) self).view := by
  have hview := view_setPcb_of_eq k hstate hcode
  rw [← hview]
  apply blockSelf_leads
  exact hleave.of_wakes (Wakes.of_eq hview)

/-- A dying process wakes its parent or nobody. -/
theorem view_wakeParent (hself : k.state self ≠ .blocked) :
    ∃ parent : Option Nat, (∀ p ∈ parent, p ≠ self ∧ k.state p = .blocked) ∧
      (wakeParent k self).view = k.view.awaken parent := by
  have hnobody : ∀ k' : Kernel, k' = k → ∃ parent : Option Nat,
      (∀ p ∈ parent, p ≠ self ∧ k.state p = .blocked) ∧
        k'.view = k.view.awaken parent :=
    fun k' heq => ⟨none, by simp, by rw [heq]; rfl⟩
  unfold wakeParent
  dsimp only
  split_ifs
  · exact hnobody k rfl
  split
  · exact hnobody k rfl
  split_ifs
  · rename_i parent _ _
    unfold procWake
    split_ifs with hblocked
    · exact hnobody k rfl
    · refine ⟨some parent, ?_, ?_⟩
      · rintro p ⟨⟩
        refine ⟨?_, not_not.mp hblocked⟩
        rintro rfl
        exact hself (not_not.mp hblocked)
      · apply view_setPcb_schedAdd <;> rfl
  · exact hnobody k rfl

theorem procExit_leads (hleave : MayLeave strict k self) (code : Int) :
    Leads strict k.view (procExit k self code).view := by
  unfold procExit
  dsimp only
  generalize hzombie : k.setPcb self
    { k.procs self with exitCode := code, state := .zombie } = k'
  have hview : k'.view = k.view.write self .zombie code :=
    hzombie ▸ view_setPcb k self _
  have hstate : k'.state self = .zombie := hzombie ▸ state_setPcb_self k self _
  obtain ⟨parent, hparent, hwake⟩ :=
    @view_wakeParent k' self (by rw [hstate]; decide)
  rw [view_schedRemove, hwake, hview]
  apply Leads.exit ⟨hleave.current, hleave.running⟩
  intro p hp
  obtain ⟨hne, hblocked⟩ := hparent p hp
  refine ⟨hne, ?_⟩
  rw [← hzombie, state_setPcb_of_ne k hne] at hblocked
  exact hblocked

end Leaving

section Handling

variable {k : Kernel} {strict : Bool} {self : Nat}

theorem view_readDone (k : Kernel) (f : Ref) (n : Int) :
    (readDone k f n).view = k.view := by
  unfold readDone
  dsimp only
  split_ifs <;> rfl

theorem view_writeDone (k : Kernel) (f : Ref) (n : Int) :
    (writeDone k f n).view = k.view := by
  unfold writeDone
  dsimp only
  split_ifs <;> rfl

/-- Does the segment end in a `sched_yield` inside the kernel? -/
def Outcome.yields : Outcome → Bool
  | .ret _ _ => false
  | .yield _ => true

theorem view_pipeDone (isWrite : Bool) (k : Kernel) (f : Ref) (n : Int) :
    (pipeDone isWrite k f n).view = k.view := by
  cases isWrite
  · exact view_readDone k f n
  · exact view_writeDone k f n

/-- A segment of a pipe transfer wakes its peer. -/
theorem PipeMoves.wakes {cause : Cause} {k₀ : Kernel} {f p : Ref}
    {isWrite : Bool} {len : Nat} {segment : PipeExit × PipeCall}
    (hmoves : PipeMoves k cause k₀ f p isWrite len segment) :
    Wakes k.view (pipeMoved k₀ p segment.2).view := by
  have hview : k₀.view = k.view := by
    cases hmoves <;> rfl
  rw [← hview]
  exact wakeAll_wakes (k₀.setStore (k₀.store.setPipe p segment.2.pipe)) _

/-- Every segment but `SYS_EXEC`, which restarts a process. -/
theorem Served.leads {k' : Kernel} {cause : Cause} {outcome : Outcome}
    (hserved : Served self k cause outcome k')
    (hleave : outcome.yields = true → MayLeave strict k self)
    (hnot : ∀ pid entry, cause ≠ .call (.exec pid entry)) :
    Leads strict k.view k'.view := by
  cases hserved with
  | returns => exact Leads.refl _
  | reads _ f n => exact Leads.of_eq (view_readDone k f n)
  | takes _ f _ n => exact Leads.of_eq (view_readDone _ f n)
  | awaitsKey => exact blockSelf_leads (hleave rfl)
  | stores => exact Leads.of_eq (view_writeDone _ _ _)
  | prints _ f n => exact Leads.of_eq (view_writeDone _ f n)
  | moves hmoves =>
      exact hmoves.wakes.leads.trans (Leads.of_eq (view_pipeDone _ _ _ _))
  | awaitsPipe hmoves =>
      exact hmoves.wakes.leads.trans (blockSelf_leads (k := Kernel.setStore _ _)
        ((hleave rfl).of_wakes hmoves.wakes))
  | sleeps => apply setPcb_blockSelf_leads (hleave rfl) <;> rfl
  | exits code => exact procExit_leads (hleave rfl) code
  | forks _ hfork => exact procFork_leads hfork
  | execs => exact absurd rfl (hnot _ _)
  | opensNot => exact Leads.refl _
  | @opensFull _ _ f store =>
      exact (wakeAll_wakes (k.setStore (vfsClose store f).2) _).leads
  | opens => exact (withTable_wakes k self _).leads
  | closes => exact (withTable_wakes k self _).leads
  | pipes _ _ htable =>
      rw [htable]
      exact (withTable_wakes k self _).leads
  | dups _ _ _ hclose =>
      rw [← hclose]
      exact (withTable_wakes k self _).leads.trans
        (withTable_wakes _ self _).leads
  | reaps _ _ _ hdestroy => exact procDestroy_leads hdestroy
  | waits => apply setPcb_blockSelf_leads (hleave rfl) <;> rfl

theorem sysExec_leads {pid entry : Nat}
    (hstrict : strict = true → entry ≠ 0 →
      k.state (pid % 2 ^ 16) ≠ .zombie) :
    Leads strict k.view (sysExec k pid entry).2.view := by
  unfold sysExec procGet
  split
  · exact Leads.refl _
  · rename_i p hget
    split_ifs at hget with hrange hunused
    rw [← Option.some.inj hget]
    split_ifs with hentry
    · exact Leads.refl _
    · have hleads := procExec_leads hunused
        (fun hs => hstrict hs hentry) entry
      dsimp only
      split_ifs <;> exact hleads

/-- May the strict machine follow this segment?  A process that gives up the
processor inside the kernel has to be RUNNING. -/
def segmentPermitted (k : Kernel) (self : Nat)
    (segment : Option (Outcome × Kernel)) : Bool :=
  match segment with
  | some (.yield _, _) => k.state self == .running
  | _ => true

/-- May the strict machine follow this system call?  Besides, no ZOMBIE may be
restarted. -/
def Syscall.permitted (k : Kernel) (self : Nat) (call : Syscall) : Bool :=
  match call with
  | .exec pid entry => entry == 0 || k.state (pid % 2 ^ 16) != .zombie
  | call => segmentPermitted k self (syscallDispatch k self call)

theorem MayLeave.of_permitted (hcurrent : k.currentProc = some self)
    {result : Outcome × Kernel}
    (hstrict : strict = true →
      segmentPermitted k self (some result) = true)
    (hyields : result.1.yields = true) : MayLeave strict k self := by
  refine ⟨hcurrent, fun hs => ?_⟩
  obtain ⟨outcome, k'⟩ := result
  cases outcome with
  | ret value reply => exact absurd hyields Bool.false_ne_true
  | yield cont => exact of_decide_eq_true (hstrict hs)

theorem syscallDispatch_leads (hcurrent : k.currentProc = some self)
    {call : Syscall} (hstrict : strict = true → call.permitted k self = true)
    {result : Outcome × Kernel}
    (hcall : syscallDispatch k self call = some result) :
    Leads strict k.view result.2.view := by
  by_cases hexec : ∃ pid entry, call = .exec pid entry
  · obtain ⟨pid, entry, rfl⟩ := hexec
    rw [← Option.some.inj hcall]
    apply sysExec_leads
    intro hs
    simpa [Syscall.permitted, or_iff_not_imp_left] using hstrict hs
  · have hsegment : call.permitted k self =
        segmentPermitted k self (some result) := by
      unfold Syscall.permitted
      split
      · exact absurd ⟨_, _, rfl⟩ hexec
      · rw [hcall]
    rw [hsegment] at hstrict
    apply (syscallDispatch_served hcall).leads
      (MayLeave.of_permitted hcurrent hstrict)
    rintro pid entry ⟨⟩
    exact hexec ⟨pid, entry, rfl⟩

end Handling

section Segments

variable {k k' : Kernel} {strict : Bool} {self : Nat}

/-- The condition under which a segment keeps to the state diagram: a process
that blocks or exits is RUNNING, and no ZOMBIE is restarted. -/
def Event.permitted (k : Kernel) (event : Event) : Bool :=
  match k.currentProc with
  | none => true
  | some self =>
      match event, k.resume with
      | .syscall call, none => call.permitted k self
      | .resume src, some cont =>
          segmentPermitted k self (resumeCall k self src cont)
      | _, _ => true

theorem resumeCall_leads (hcurrent : k.currentProc = some self)
    {src : Nat → UInt8} {cont : Cont} {result : Outcome × Kernel}
    (hstrict : strict = true → segmentPermitted k self (some result) = true)
    (hresume : resumeCall k self src cont = some result) :
    Leads strict k.view result.2.view := by
  have hview : (resumed k self cont).view = k.view := by
    cases cont with
    | wait => apply view_setPcb_of_eq <;> rfl
    | _ => rfl
  rw [← hview]
  exact (resumeCall_served hresume).leads (fun hyields =>
    (MayLeave.of_permitted hcurrent hstrict hyields).of_wakes
      (Wakes.of_eq hview)) nofun

theorem settle_leads (result : Outcome × Kernel) :
    Leads strict result.2.view (settle result).view := by
  unfold settle
  split
  · exact schedSwitchEsp_leads result.2 .user
  · exact schedYield_leads result.2 _

/-- A segment of the kernel is a sequence of acts; one that keeps to the
conditions is a sequence of acts of the strict machine. -/
theorem step_leads {event : Event}
    (hstrict : strict = true → event.permitted k = true)
    (hstep : k.step event = some k') : Leads strict k.view k'.view := by
  obtain ⟨outcome, k₁, hhandler, rfl⟩ := step_eq_some hstep
  obtain ⟨self, hcurrent, hhandles⟩ := handler_handles hhandler
  refine Leads.trans ?_ (settle_leads (outcome, k₁))
  cases hhandles with
  | timer => exact (timerHandler_wakes k).leads
  | key scancode => exact (keyHandler_wakes k scancode).leads
  | call hresume hcall =>
      simp only [Event.permitted, hcurrent, hresume] at hstrict
      exact syscallDispatch_leads hcurrent hstrict hcall
  | resume hresume hcall =>
      simp only [Event.permitted, hcurrent, hresume, hcall] at hstrict
      exact resumeCall_leads hcurrent hstrict hcall

/-- Nothing has been created yet. -/
def Lifecycle.initial : Lifecycle where
  state := fun _ => .unused
  exitCode := fun _ => 0
  queue := 0
  current := none
  changes := []
  refused := 0

theorem schedStart_leads (hidle : k.currentProc = none)
    (hstart : schedStart k = some k') : Leads strict k.view k'.view := by
  unfold schedStart at hstart
  cases hpick : pickReady k none k.readyQueue.zipIdx none with
  | none =>
      rw [hpick] at hstart
      exact absurd hstart.symm (Option.some_ne_none _)
  | some pick =>
      obtain ⟨first, idx⟩ := pick
      rw [hpick] at hstart
      obtain ⟨-, hready, hmem⟩ := pickReady_queue k hpick
      have hcurrent : k.view.current = none := hidle
      have hpreempt : k.view.preempt = k.view := by
        unfold preempt
        rw [hcurrent]
      have hleads := @Leads.dispatch k.view strict first
        (by rw [hcurrent]; exact (Option.some_ne_none _).symm) hready hmem
      rw [← Option.some.inj hstart]
      rw [hpreempt] at hleads
      apply hleads.trans
      apply Leads.of_eq
      apply view_takeOver <;> rfl

theorem boot_leads {refuses : Nat → Bool} {idleEntry : Nat}
    (hboot : boot refuses idleEntry = some k) :
    Leads strict Lifecycle.initial k.view := by
  unfold boot at hboot
  dsimp only at hboot
  generalize devfsInit (ramfsInit (Store.empty refuses)) = store at hboot
  have hcreate := @procCreate_leads strict (Kernel.reset store) procPrioIdle
  rcases hnew : procCreate (Kernel.reset store) procPrioIdle with
    ⟨_ | idle, k₁⟩
  · rw [hnew] at hboot
    exact absurd hboot.symm (Option.some_ne_none _)
  rw [hnew] at hboot hcreate
  obtain ⟨k₂, hready, hstart⟩ := Option.bind_eq_some_iff.mp hboot
  apply hcreate.trans
  apply (Leads.of_eq (view_procInitFrame k₁ idle idleEntry)).trans
  apply (procSetReady_schedAdd_leads hready).trans
  apply schedStart_leads _ hstart
  have hfirst := procCreate_current (Kernel.reset store) procPrioIdle
  rw [hnew] at hfirst
  rw [procSetReady_schedAdd_current hready]
  exact (congrArg Lifecycle.current
    (view_procInitFrame k₁ idle idleEntry)).trans hfirst

end Segments

end Orion
