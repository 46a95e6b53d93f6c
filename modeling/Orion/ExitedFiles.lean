/-
Descriptors of processes that have exited.  `proc_exit` closes none, so a
ZOMBIE holds what it had open; the guard says when it holds nothing, and what
the two ends of a pipe then see.
-/
import Orion.ChildWait
import Orion.OpenFiles

namespace Orion

/-- No ZOMBIE has a descriptor. -/
def ZombiesEmpty (k : Kernel) : Prop :=
  ∀ pid, k.state pid = .zombie → ∀ fd < fdMax, k.tables pid fd = none

/-- The process has no open descriptor. -/
def holdsNothing (k : Kernel) (pid : Nat) : Bool :=
  (List.range fdMax).all fun fd => (k.tables pid fd).isNone

/-- Nobody exits with an open descriptor, and a ZOMBIE that is still running,
because nobody else is READY, opens none. -/
def exitsEmpty (k : Kernel) : Event → Bool
  | .syscall call =>
      match k.currentProc with
      | none => true
      | some self =>
          match call with
          | .exit _ => holdsNothing k self
          | .open path flags => k.state self != .zombie ||
              holdsNothing (sysOpen k self path flags).2 self
          | .pipe buf => k.state self != .zombie ||
              holdsNothing (sysPipe k self buf).2 self
          | _ => true
  | _ => true

/-- Every descriptor on one end of a pipe belongs to an exited process. -/
def EndExited (k : Kernel) (p : Nat) (isWrite : Bool) : Prop :=
  ∀ pid < maxProcs, ∀ fd < fdMax, ∀ f ∈ k.tables pid fd,
    fileEnd k.store f = some (p, isWrite) → k.state pid = .zombie

instance (k : Kernel) (p : Nat) (isWrite : Bool) :
    Decidable (EndExited k p isWrite) :=
  inferInstanceAs (Decidable (∀ pid < maxProcs, ∀ fd < fdMax,
    ∀ f ∈ k.tables pid fd, fileEnd k.store f = some (p, isWrite) →
      k.state pid = .zombie))

section Tables

variable {k k' k'' : Kernel} {self pid : Nat}

theorem holdsNothing_iff : holdsNothing k pid = true ↔
    ∀ fd < fdMax, k.tables pid fd = none := by
  simp only [holdsNothing, List.all_eq_true, List.mem_range,
    Option.isNone_iff_eq_none]

/-- Only the descriptors of one process have changed. -/
def TablesOff (pid : Nat) (k k' : Kernel) : Prop :=
  ∀ other, other ≠ pid → k'.tables other = k.tables other

theorem TablesOff.trans (hfirst : TablesOff pid k k')
    (hsecond : TablesOff pid k' k'') : TablesOff pid k k'' :=
  fun other hother => (hsecond other hother).trans (hfirst other hother)

theorem KeepsFiles.tablesOff (hkeeps : KeepsFiles k k') (pid : Nat) :
    TablesOff pid k k' := fun other _ => hkeeps.table other

theorem TablesOff.of_procs (pcb : Pcb) (hprocs : k'.procs =
    Function.update k.procs pid pcb) : TablesOff pid k k' := by
  intro other hother
  rw [Kernel.tables, hprocs, Function.update_of_ne hother]
  rfl

theorem setPcb_tablesOff (k : Kernel) (pid : Nat) (pcb : Pcb) :
    TablesOff pid k (k.setPcb pid pcb) := TablesOff.of_procs pcb rfl

theorem withTable_tablesOff (k : Kernel) (pid : Nat)
    (result : List Nat × Store × FdTable) :
    TablesOff pid k (withTable k pid result) := by
  have hset : TablesOff pid k ((k.setStore result.2.1).setPcb pid
      { k.procs pid with fdTable := result.2.2 }) :=
    TablesOff.of_procs _ rfl
  exact hset.trans ((wakeAll_calm _ result.1).keepsFiles.tablesOff pid)

/-- A fork touches the entry of the child only. -/
theorem procFork_off {entry : Nat} {result : Option Nat × Kernel}
    (hinv : TableInv k) (hself : k.state self ≠ .unused)
    (hfork : procFork k self entry = some result) :
    ∃ child, StirsOff child k result.2 ∧ TablesOff child k result.2 ∧
      result.2.state child ≠ .zombie := by
  rcases procFork_cases hinv hfork with
    ⟨-, hprocs, hcurrent, -⟩ | ⟨child, k₁, hcreates, heq, -⟩
  · -- nothing has changed; the slot 0 is never in use
    refine ⟨pidKernel, ⟨?_, ?_, ?_, hcurrent⟩, fun other _ => ?_, ?_⟩
    · exact fun other _ => by rw [hprocs]
    · exact fun other _ => by rw [hprocs]
    · exact fun other _ => .inl (by rw [Kernel.state, hprocs]; rfl)
    · rw [Kernel.tables, hprocs]
      rfl
    · intro hzombie
      rw [Kernel.state, hprocs] at hzombie
      exact (hinv.zombie_range hzombie).ne_reserved (.inl rfl)
  · obtain ⟨kstack, store, -, -, hprocs⟩ := hcreates.entry
    have hadopt : TablesOff child k₁ (adoptChild k₁ self child) := by
      exact (setPcb_tablesOff k₁ child _).trans
        ((withTable_tablesOff _ child _).trans (withTable_tablesOff _ child _))
    refine ⟨child, ?_, ?_, ?_⟩
    · rw [heq]
      exact (hcreates.forks hself).toStirsOff
    · rw [heq]
      exact (TablesOff.of_procs _ hprocs).trans
        (hadopt.trans ((launch_keepsFiles _ child entry).tablesOff child))
    · rw [heq, (hcreates.forks hself).ready]
      exact ProcState.noConfusion

theorem procDestroy_tablesOff {child : Nat}
    (hdestroy : procDestroy k child = some k') : TablesOff child k k' := by
  unfold procDestroy at hdestroy
  split_ifs at hdestroy
  rw [← Option.some.inj hdestroy]
  dsimp only
  have hclose := withTable_tablesOff
    (k.setStore (k.store.kfreeOption (k.procs child).kstackBase)) child
    (fdTableCloseAll (k.store.kfreeOption (k.procs child).kstackBase)
      (k.procs child).fdTable)
  change TablesOff child k (closeFiles (k.setStore (k.store.kfreeOption
    (k.procs child).kstackBase)) child) at hclose
  generalize closeFiles (k.setStore (k.store.kfreeOption
    (k.procs child).kstackBase)) child = k₁ at hclose ⊢
  have hfree : TablesOff child k₁ (pidFree k₁ (k₁.procs child).pid) := by
    intro other _
    rw [Kernel.tables, (pidFree_frame k₁ _).1]
    rfl
  exact hclose.trans (hfree.trans (setPcb_tablesOff _ child _))

theorem sysOpen_tablesOff (k : Kernel) (self : Nat)
    (path : Option (List UInt8)) (flags : UInt32) :
    TablesOff self k (sysOpen k self path flags).2 := by
  unfold sysOpen
  split
  · exact fun _ _ => rfl
  split
  · exact fun _ _ => rfl
  split
  · exact (wakeAll_calm _ _).keepsFiles.tablesOff self
  · exact withTable_tablesOff k self _

theorem sysPipe_tablesOff (k : Kernel) (self : Nat) (buf : Bool) :
    TablesOff self k (sysPipe k self buf).2 := by
  unfold sysPipe
  dsimp only
  split_ifs
  · split <;> exact withTable_tablesOff k self _
  · exact fun _ _ => rfl

/-- Without descriptors there is nothing to close or to copy. -/
theorem openFile_empty (hempty : ∀ fd < fdMax, k.tables self fd = none)
    (fd : Nat) : openFile k self fd = none := by
  unfold openFile
  split_ifs with hrange
  · rfl
  · exact hempty fd (Nat.lt_of_not_le hrange)

theorem sysClose_empty (hempty : ∀ fd < fdMax, k.tables self fd = none)
    (fd : Nat) : (sysClose k self fd).2 = k := by
  unfold sysClose
  rw [openFile_empty hempty]
  rfl

theorem sysDup2_empty (hempty : ∀ fd < fdMax, k.tables self fd = none)
    (oldfd newfd : Nat) : (sysDup2 k self oldfd newfd).2 = k := by
  unfold sysDup2
  rw [openFile_empty hempty]
  rfl

theorem sysClose_tablesOff (k : Kernel) (self fd : Nat) :
    TablesOff self k (sysClose k self fd).2 := by
  unfold sysClose
  split
  · exact fun _ _ => rfl
  · exact withTable_tablesOff k self _

theorem sysDup2_tablesOff (k : Kernel) (self oldfd newfd : Nat) :
    TablesOff self k (sysDup2 k self oldfd newfd).2 := by
  unfold sysDup2
  split
  · exact fun _ _ => rfl
  split_ifs
  · exact fun _ _ => rfl
  · exact fun _ _ => rfl
  · exact (withTable_tablesOff k self _).trans (withTable_tablesOff _ self _)

end Tables

section Steps

variable {k k' : Kernel} {self : Nat}

theorem ZombiesEmpty.keeps (hempty : ZombiesEmpty k) (hkeeps : KeepsFiles k k')
    (hzombie : ∀ pid, k'.state pid = .zombie → k.state pid = .zombie) :
    ZombiesEmpty k' := by
  intro pid hpid fd hfd
  rw [Kernel.tables, hkeeps.table]
  exact hempty pid (hzombie pid hpid) fd hfd

theorem Switches.zombie_iff {esp : Frame} (hswitch : Switches k esp k')
    (pid : Nat) : k'.state pid = .zombie ↔ k.state pid = .zombie := by
  rcases hswitch.state pid with hsame | ⟨hold, hnew⟩ | ⟨hold, hnew⟩
  · rw [hsame]
  · simp [hold, hnew]
  · simp [hold, hnew]

theorem ZombiesEmpty.switches {esp : Frame} (hswitch : Switches k esp k') :
    ZombiesEmpty k' ↔ ZombiesEmpty k := by
  have htables : k'.tables = k.tables := funext hswitch.table
  simp only [ZombiesEmpty, hswitch.zombie_iff, htables]

/-- Something happens to one process and its descriptors. -/
theorem ZombiesEmpty.off {pid : Nat} (hempty : ZombiesEmpty k)
    (hoff : StirsOff pid k k') (htables : TablesOff pid k k')
    (hself : k'.state pid = .zombie → ∀ fd < fdMax, k'.tables pid fd = none) :
    ZombiesEmpty k' := by
  intro other hzombie
  by_cases heq : other = pid
  · subst heq
    exact hself hzombie
  · rw [htables other heq]
    exact hempty other
      ((hoff.state_iff heq (by decide) (by decide)).mp hzombie)

theorem ZombiesEmpty.stirs (hempty : ZombiesEmpty k) (hstirs : Stirs k k')
    (htables : TablesOff self k k')
    (hself : k.state self = .zombie → ∀ fd < fdMax, k'.tables self fd = none) :
    ZombiesEmpty k' :=
  hempty.off (hstirs.off self) htables fun hzombie =>
    hself ((hstirs.state_iff (by decide) (by decide)).mp hzombie)

theorem Handled.zombiesEmpty {cause : Cause} {outcome : Outcome}
    (hhandled : Handled self k cause outcome k') (hempty : ZombiesEmpty k)
    (hinv : TableInv k) (hcurrent : k.currentProc = some self)
    (hguard : ∀ call, cause = .call call →
      exitsEmpty k (.syscall call) = true) : ZombiesEmpty k' := by
  have hused := hinv.current self hcurrent
  simp only [exitsEmpty, hcurrent] at hguard
  cases hhandled with
  | calm hcalm =>
      exact hempty.keeps hcalm.keepsFiles
        fun _ => (hcalm.toStirs.state_iff (by decide) (by decide)).mp
  | @sleeps _ _ k₁ hcalm _ =>
      have hcalm' := hempty.keeps hcalm.keepsFiles
        fun _ => (hcalm.toStirs.state_iff (by decide) (by decide)).mp
      have hleaves := blockSelf_leaves k₁ self
      apply hcalm'.off hleaves.toStirsOff
        ((blockSelf_keepsFiles k₁ self).tablesOff self)
      rw [hleaves.ends]
      exact fun h => absurd h ProcState.noConfusion
  | exits code =>
      have hkeeps := procExit_keepsFiles k self code
      apply hempty.off (procExit_leaves k self code).toStirsOff
        (hkeeps.tablesOff self)
      intro _ fd hfd
      rw [Kernel.tables, hkeeps.table]
      exact holdsNothing_iff.mp (hguard _ rfl) fd hfd
  | forks hfork =>
      obtain ⟨child, hoff, htables, hstate⟩ := procFork_off hinv hused hfork
      exact hempty.off hoff htables fun h => absurd h hstate
  | @execs pid entry p _ _ hget =>
      rcases procExec_restarts k p entry with ⟨-, hsame⟩ | ⟨-, hrestarts⟩
      · rw [hsame]
        exact hempty
      · apply hempty.off hrestarts.toStirsOff
          ((procExec_keepsFiles k p entry).tablesOff p)
        rw [hrestarts.ready]
        exact fun h => absurd h ProcState.noConfusion
  | @opens path flags _ _ _ hopen =>
      have hstirs := @sysOpen_stirs path flags k self
      have htables := sysOpen_tablesOff k self path flags
      have hallowed := hguard _ rfl
      rw [hopen] at hstirs htables
      simp only [hopen] at hallowed
      apply hempty.stirs hstirs htables
      intro hzombie
      rw [hzombie] at hallowed
      exact holdsNothing_iff.mp hallowed
  | @closes fd _ _ _ hclose =>
      have hstirs := sysClose_stirs k self fd
      have htables := sysClose_tablesOff k self fd
      have hsame := fun hzombie => sysClose_empty (hempty self hzombie) fd
      rw [hclose] at hstirs htables hsame
      apply hempty.stirs hstirs htables
      intro hzombie
      rw [hsame hzombie]
      exact hempty self hzombie
  | @pipes buf _ _ _ hpipe =>
      have hstirs := sysPipe_stirs k self buf
      have htables := sysPipe_tablesOff k self buf
      have hallowed := hguard _ rfl
      rw [hpipe] at hstirs htables
      simp only [hpipe] at hallowed
      apply hempty.stirs hstirs htables
      intro hzombie
      rw [hzombie] at hallowed
      exact holdsNothing_iff.mp hallowed
  | @dups oldfd newfd _ _ _ hdup =>
      have hstirs := sysDup2_stirs k self oldfd newfd
      have htables := sysDup2_tablesOff k self oldfd newfd
      have hsame := fun hzombie =>
        sysDup2_empty (hempty self hzombie) oldfd newfd
      rw [hdup] at hstirs htables hsame
      apply hempty.stirs hstirs htables
      intro hzombie
      rw [hsame hzombie]
      exact hempty self hzombie
  | reaps _ _ hdestroy =>
      have hgone := procDestroy_destroys hinv hdestroy
      apply hempty.off hgone.toStirsOff (procDestroy_tablesOff hdestroy)
      rw [Kernel.state, hgone.blank]
      exact fun h => absurd h ProcState.noConfusion
  | @waits _ pid _ _ _ =>
      have hleaves := waitBlock_leaves k self pid
      apply hempty.off hleaves.toStirsOff
        ((waitBlock_keepsFiles k self pid).tablesOff self)
      rw [hleaves.ends]
      exact fun h => absurd h ProcState.noConfusion

theorem Segment.zombiesEmpty {event : Event} (hsegment : Segment k event k')
    (hempty : ZombiesEmpty k) (hinv : TableInv k)
    (hguard : exitsEmpty k event = true) : ZombiesEmpty k' := by
  cases hsegment with
  | interrupt hcalm _ hswitch =>
      exact (ZombiesEmpty.switches hswitch).mpr (hempty.keeps hcalm.keepsFiles
        fun _ => (hcalm.toStirs.state_iff (by decide) (by decide)).mp)
  | call hcurrent _ hhandled hswitch =>
      refine (ZombiesEmpty.switches hswitch).mpr
        (hhandled.zombiesEmpty hempty hinv hcurrent ?_)
      rintro call ⟨⟩
      exact hguard
  | @resume self _ cont _ _ _ hcurrent _ hhandled hswitch =>
      have hleaves := resumed_leaves k self cont
      have hself := hinv.current self hcurrent
      have hempty' : ZombiesEmpty (resumed k self cont) := by
        apply hempty.keeps (resumed_keepsFiles k self cont)
        intro pid hzombie
        by_cases heq : pid = self
        · rw [heq] at hzombie ⊢
          exact hleaves.ends.symm.trans hzombie
        · exact (hleaves.state_iff heq (by decide) (by decide)).mp hzombie
      refine (ZombiesEmpty.switches hswitch).mpr (hhandled.zombiesEmpty hempty'
        (hinv.leaves hleaves hself hself) (hleaves.current.trans hcurrent) ?_)
      rintro call ⟨⟩

/-- Against the guard a ZOMBIE is left with a descriptor. -/
theorem step_zombie_holds {event : Event}
    (hguard : exitsEmpty k event = false) (hstep : k.step event = some k') :
    ¬ ZombiesEmpty k' := by
  cases event with
  | syscall call =>
      obtain ⟨self, result, hcurrent, hcall, rfl⟩ := step_syscall hstep
      rw [ZombiesEmpty.switches (settle_switches result)]
      simp only [exitsEmpty, hcurrent] at hguard
      intro hempty
      suffices hheld : result.2.state self = .zombie ∧
          holdsNothing result.2 self = false by
        have hnothing := holdsNothing_iff.mpr (hempty self hheld.1)
        rw [hheld.2] at hnothing
        cases hnothing
      cases call with
      | exit code =>
          rw [← Option.some.inj hcall]
          refine ⟨(procExit_leaves k self code).ends, ?_⟩
          rw [← hguard, holdsNothing, holdsNothing,
            show (sysExit k self code).2.tables = k.tables from
              funext (procExit_keepsFiles k self code).table]
      | «open» path flags =>
          rw [← Option.some.inj hcall]
          simp only [Bool.or_eq_false_iff, bne_eq_false_iff_eq] at hguard
          exact ⟨((sysOpen_stirs k self).state_iff (by decide)
            (by decide)).mpr hguard.1, hguard.2⟩
      | pipe buf =>
          rw [← Option.some.inj hcall]
          simp only [Bool.or_eq_false_iff, bne_eq_false_iff_eq] at hguard
          exact ⟨((sysPipe_stirs k self buf).state_iff (by decide)
            (by decide)).mpr hguard.1, hguard.2⟩
      | _ => cases hguard
  | _ => cases hguard

/-- At the end of the boot sequence no process has ever exited. -/
theorem boot_no_zombie {refuses : Nat → Bool} {idleEntry : Nat}
    (hboot : boot refuses idleEntry = some k) (pid : Nat) :
    k.state pid ≠ .zombie := by
  obtain ⟨idle, hboots⟩ := boot_boots hboot
  rcases hboots.state_cases pid with ⟨-, hstate⟩ | hstate <;>
    rw [hstate] <;> decide

theorem boot_openFiles {refuses : Nat → Bool} {idleEntry : Nat}
    (hboot : boot refuses idleEntry = some k) : OpenFiles k := by
  obtain ⟨idle, k₁, hcreates, hstart⟩ := boot_creates hboot
  have hfiles := hcreates.openFiles (reset_openFiles refuses)
  apply schedStart_openFiles _ hstart
  apply hfiles.keeps (launch_keepsFiles k₁ idle idleEntry)
  intro pid hunused
  by_cases heq : pid = idle
  · rw [heq, (launch_entry idleEntry hcreates.embryo.2).1] at hunused
    cases hunused
  · exact ((launch_off k₁ idle idleEntry).state_iff heq (by decide)
      (by decide)).mp hunused

end Steps

section Pipes

variable {k : Kernel} {p : Nat} {isWrite : Bool}

/-- An end that only exited processes hold is not counted any more. -/
theorem OpenFiles.endCount_zero (hfiles : OpenFiles k)
    (hempty : ZombiesEmpty k) (hpipe : k.store.isLive .pipe p = true)
    (hexited : EndExited k p isWrite) :
    (k.store.pipes p).endCount isWrite = 0 := by
  by_contra hcount
  rcases hfiles.counted.ends p isWrite (beq_iff_eq.mp hpipe) hcount with
    howed | ⟨f, hlive, hend⟩
  · cases howed
  · obtain ⟨⟨pid, fd⟩, hslot, hheld⟩ :=
      Occupancy.count_pos_iff.mp ((hfiles.counted.live f).mp hlive)
    obtain ⟨hpid, hfd⟩ := mem_slots.mp hslot
    have hzombie := hexited pid hpid fd hfd f hheld hend
    have hnone : (none : Option Nat) = some f :=
      (hempty pid hzombie fd hfd).symm.trans hheld
    cases hnone

/-- Without writers a reader never sleeps. -/
theorem pipeReadLoop_no_block (len fuel : Nat) (call : PipeCall)
    (hwriters : call.pipe.writers = 0) :
    (pipeReadLoop len fuel call).1 ≠ .block := by
  induction fuel generalizing call with
  | zero => exact PipeExit.noConfusion
  | succ fuel ih =>
      rw [pipeReadLoop]
      split_ifs
      · exact PipeExit.noConfusion
      · exact ih _ ((readBatch_sameEnds call _).2.trans hwriters)
      · exact PipeExit.noConfusion

theorem pipeReadOp_eof {pipe : Pipe} {len : Nat} (hlen : 0 < len)
    (hcount : pipe.count = 0) (hwriters : pipe.writers = 0) :
    (pipeReadOp len (PipeCall.enter pipe 0)).1 = .done 0 := by
  unfold pipeReadOp pipeFuel
  rw [pipeReadLoop, if_pos (show (PipeCall.enter pipe 0).moved < len from hlen),
    if_pos (show (PipeCall.enter pipe 0).pipe.count = 0 from hcount),
    if_pos (show (PipeCall.enter pipe 0).pipe.writers = 0 from hwriters)]
  rfl

theorem pipeWriteOp_broken {pipe : Pipe} {len : Nat} (hlen : 0 < len)
    (hreaders : pipe.readers = 0) (src : Nat → UInt8) :
    (pipeWriteOp len src (PipeCall.enter pipe 0)).1 = .done (-1) := by
  unfold pipeWriteOp pipeFuel
  rw [pipeWriteLoop,
    if_pos (show (PipeCall.enter pipe 0).moved < len from hlen),
    if_pos (show (PipeCall.enter pipe 0).pipe.readers = 0 from hreaders)]

end Pipes

/-- In a run no ZOMBIE ever holds a descriptor exactly when every process has
closed its descriptors before it exits, and opens none after.  If besides no
`SYS_PIPE` fails half-way, a pipe whose writers have exited gives its reader
the end of file, and one whose readers have exited refuses its writer. -/
theorem exitedFiles_run_iff (refuses : Nat → Bool) (idleEntry : Nat)
    (events : List Event) (booted k : Kernel)
    (hboot : boot refuses idleEntry = some booted)
    (hrun : Machine.exec Kernel.step booted events = some k) :
    (Machine.exec (Machine.guarded exitsEmpty Kernel.step) booted events =
        some k ↔
      ∀ past rest mid, events = past ++ rest →
        Machine.exec Kernel.step booted past = some mid → ZombiesEmpty mid) ∧
    (Machine.exec (Machine.guarded exitsEmpty Kernel.step) booted events =
        some k →
      Machine.exec (Machine.guarded pipesSucceed Kernel.step) booted events =
        some k →
      ∀ p, k.store.isLive .pipe p = true →
        (EndExited k p true → (k.store.pipes p).writers = 0 ∧
          ∀ len, (pipeReadOp len (PipeCall.enter (k.store.pipes p) 0)).1 ≠
              .block ∧
            (0 < len → (k.store.pipes p).count = 0 →
              (pipeReadOp len (PipeCall.enter (k.store.pipes p) 0)).1 =
                .done 0)) ∧
        (EndExited k p false → (k.store.pipes p).readers = 0 ∧
          ∀ len src, 0 < len →
            (pipeWriteOp len src (PipeCall.enter (k.store.pipes p) 0)).1 =
              .done (-1))) := by
  have hinit : TableInv booted ∧ ZombiesEmpty booted :=
    ⟨boot_tableInv hboot,
      fun pid hzombie => absurd hzombie (boot_no_zombie hboot pid)⟩
  have hkeep : ∀ (j : Kernel) (event : Event) (j' : Kernel),
      TableInv j ∧ ZombiesEmpty j → exitsEmpty j event = true →
      j.step event = some j' → TableInv j' ∧ ZombiesEmpty j' := by
    rintro j event j' ⟨hinv, hempty⟩ hguard hstep
    exact ⟨(step_segment hstep).tableInv hinv,
      (step_segment hstep).zombiesEmpty hempty hinv hguard⟩
  have hiff := Machine.exec_guarded_iff (fun _ => And.right) hkeep
    (fun _ _ _ _ => step_zombie_holds) hinit hrun
  refine ⟨hiff, fun hexits hpipes p hlive => ?_⟩
  have hempty : ZombiesEmpty k :=
    hiff.mp hexits events [] k (List.append_nil _).symm hrun
  have hfiles : OpenFiles k := by
    have hstep : ∀ (j : Kernel) (event : Event) (j' : Kernel),
        TableInv j ∧ OpenFiles j →
        Machine.guarded pipesSucceed Kernel.step j event = some j' →
        TableInv j' ∧ OpenFiles j' := by
      rintro j event j' ⟨hinv, hfiles⟩ hguarded
      obtain ⟨hguard, hstep⟩ := Machine.guarded_eq_some.mp hguarded
      exact ⟨(step_segment hstep).tableInv hinv,
        (step_segment hstep).openFiles_of_succeed hfiles hinv hguard⟩
    exact (Machine.exec_invariant hstep
      ⟨boot_tableInv hboot, boot_openFiles hboot⟩ hpipes).2
  constructor
  · intro hexited
    have hwriters : (k.store.pipes p).writers = 0 :=
      hfiles.endCount_zero hempty hlive hexited
    exact ⟨hwriters, fun len => ⟨pipeReadLoop_no_block len _ _ hwriters,
      fun hlen hcount => pipeReadOp_eof hlen hcount hwriters⟩⟩
  · intro hexited
    have hreaders : (k.store.pipes p).readers = 0 :=
      hfiles.endCount_zero hempty hlive hexited
    exact ⟨hreaders, fun len src hlen => pipeWriteOp_broken hlen hreaders src⟩

namespace ExitedFilesWitness

/-- Process 1 makes a pipe, forks 2 and reads from the pipe. -/
def reader : List Event :=
  [.syscall (.pipe true), .syscall (.fork 0x2000), .syscall (.close 4),
    .syscall (.read 3 true 1)]

/-- Process 2 closes what it has inherited and exits. -/
def closes : List Event :=
  [.syscall (.close 0), .syscall (.close 1), .syscall (.close 2),
    .syscall (.close 3), .syscall (.close 4), .syscall (.exit 0)]

theorem closing_run :
    ((boot (fun _ => false) 0x1000).bind fun booted =>
      (Machine.exec (Machine.guarded
        (fun k event => exitsEmpty k event && pipesSucceed k event)
        Kernel.step) booted (reader ++ closes)).map fun k =>
          (k.state 2, k.store.isLive .pipe 16, (k.store.pipes 16).count,
            decide (EndExited k 16 true))) =
      some (.zombie, true, 0, true) := by
  decide +kernel

/-- The reader of the pipe is told that its writer has exited. -/
theorem reader_sees_eof : ∃ booted k : Kernel,
    boot (fun _ => false) 0x1000 = some booted ∧
      Machine.exec Kernel.step booted (reader ++ closes) = some k ∧
      k.state 2 = .zombie ∧ ZombiesEmpty k ∧
      (pipeReadOp 1 (PipeCall.enter (k.store.pipes 16) 0)).1 = .done 0 := by
  obtain ⟨booted, hboot, hrest⟩ := Option.bind_eq_some_iff.mp closing_run
  obtain ⟨k, hguarded, hview⟩ := Option.map_eq_some_iff.mp hrest
  simp only [Prod.mk.injEq, decide_eq_true_eq] at hview
  obtain ⟨hzombie, hlive, hcount, hexited⟩ := hview
  have hrun := Machine.exec_of_guarded hguarded
  have hexits := Machine.exec_guarded_mono
    (fun _ _ h => (Bool.and_eq_true_iff.mp h).1) hguarded
  have hpipes := Machine.exec_guarded_mono
    (fun _ _ h => (Bool.and_eq_true_iff.mp h).2) hguarded
  obtain ⟨hiff, hends⟩ := exitedFiles_run_iff _ _ _ booted k hboot hrun
  exact ⟨booted, k, hboot, hrun, hzombie,
    hiff.mp hexits _ [] k (List.append_nil _).symm hrun,
    (((hends hexits hpipes 16 hlive).1 hexited).2 1).2 Nat.one_pos hcount⟩

/-- Process 2 exits with the write end open: it is the only writer left, the
pipe still counts it, and the reader sleeps on. -/
theorem exited_writer_counted :
    ((boot (fun _ => false) 0x1000).bind fun booted =>
      (Machine.exec Kernel.step booted (reader ++ [.syscall (.exit 0)])).map
        fun k => (k.state 2,
          (k.tables 2 4).bind (fileEnd k.store) == some (16, true),
          (k.store.pipes 16).writers, decide (EndExited k 16 true),
          k.state 1)) =
      some (.zombie, true, 1, true, .blocked) := by
  decide +kernel

end ExitedFilesWitness

end Orion
