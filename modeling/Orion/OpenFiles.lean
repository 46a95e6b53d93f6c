/-
The counts of open files along every run of the kernel: of each step that
changes a descriptor table, and of all steps that change none.
-/
import Orion.FdCounts
import Orion.PidTable

namespace Orion

/-- The descriptor tables of all processes. -/
def Kernel.tables (k : Kernel) : Nat → FdTable := fun pid => (k.procs pid).fdTable

structure OpenFiles (k : Kernel) : Prop where
  counted : CountInv k.store (slotCount k.tables) []
  blank : ∀ pid, k.state pid = .unused → ∀ fd < fdMax, k.tables pid fd = none
  kstack : ∀ pid r, (k.procs pid).kstackBase = some r → NotFile k.store r

/-- Descriptors and stacks are as they were, and the heap has changed
quietly. -/
structure KeepsFiles (k k' : Kernel) : Prop where
  table : ∀ pid, (k'.procs pid).fdTable = (k.procs pid).fdTable
  kstack : ∀ pid, (k'.procs pid).kstackBase = (k.procs pid).kstackBase
  store : Typed k.store → Quiet k.store k'.store

section Frames

variable {k k' k'' : Kernel} {self pid : Nat}

theorem KeepsFiles.trans (hfirst : KeepsFiles k k')
    (hsecond : KeepsFiles k' k'') : KeepsFiles k k'' where
  table := fun pid => (hsecond.table pid).trans (hfirst.table pid)
  kstack := fun pid => (hsecond.kstack pid).trans (hfirst.kstack pid)
  store := fun htyped =>
    (hfirst.store htyped).trans (hsecond.store (hfirst.store htyped).typed)

theorem Calm.keepsFiles (hcalm : Calm k k') : KeepsFiles k k' :=
  ⟨hcalm.table, fun pid => congrArg Kin.kstackBase (hcalm.kin pid),
    hcalm.store⟩

theorem Switches.keepsFiles {esp : Frame} (hswitch : Switches k esp k') :
    KeepsFiles k k' := by
  refine ⟨hswitch.table, fun pid => congrArg Kin.kstackBase (hswitch.kin pid),
    fun htyped => ?_⟩
  rw [hswitch.store]
  exact Quiet.refl htyped

theorem KeepsFiles.setPcb {pcb : Pcb}
    (htable : pcb.fdTable = (k.procs pid).fdTable)
    (hkstack : pcb.kstackBase = (k.procs pid).kstackBase) :
    KeepsFiles k (k.setPcb pid pcb) where
  table := forall_setPcb (P := fun other new =>
    new.fdTable = (k.procs other).fdTable) htable fun _ _ => rfl
  kstack := forall_setPcb (P := fun other new =>
    new.kstackBase = (k.procs other).kstackBase) hkstack fun _ _ => rfl
  store := Quiet.refl

theorem blockSelf_keepsFiles (k : Kernel) (self : Nat) :
    KeepsFiles k (blockSelf k self) := by
  have hset : KeepsFiles k (k.setPcb self
      { k.procs self with state := .blocked }) := by
    apply KeepsFiles.setPcb <;> rfl
  exact hset.trans (schedRemove_still _ self).calm.keepsFiles

theorem waitBlock_keepsFiles (k : Kernel) (self pid : Nat) :
    KeepsFiles k (waitBlock k self pid) := by
  have hset : KeepsFiles k (k.setPcb self { k.procs self with
      waitForPid := pid, waiting := true, wakeupTick := 0 }) := by
    apply KeepsFiles.setPcb <;> rfl
  exact hset.trans (blockSelf_keepsFiles _ self)

theorem procExit_keepsFiles (k : Kernel) (self : Nat) (code : Int) :
    KeepsFiles k (procExit k self code) := by
  have hset : KeepsFiles k (k.setPcb self
      { k.procs self with exitCode := code, state := .zombie }) := by
    apply KeepsFiles.setPcb <;> rfl
  exact hset.trans ((wakeParent_calm _ self).keepsFiles.trans
    (schedRemove_still _ self).calm.keepsFiles)

theorem procInitFrame_keepsFiles (k : Kernel) (pid entry : Nat) :
    KeepsFiles k (procInitFrame k pid entry) := by
  unfold procInitFrame
  split_ifs
  · exact (Calm.refl k).keepsFiles
  · apply KeepsFiles.setPcb <;> rfl

theorem procExec_keepsFiles (k : Kernel) (pid entry : Nat) :
    KeepsFiles k (procExec k pid entry).2 := by
  unfold procExec
  split_ifs
  · exact (Calm.refl k).keepsFiles
  have hframe := (schedRemove_still k pid).calm.keepsFiles.trans
    (procInitFrame_keepsFiles (schedRemove k pid) pid entry)
  dsimp only
  generalize procInitFrame (schedRemove k pid) pid entry = k₁ at hframe ⊢
  refine hframe.trans (KeepsFiles.trans ?_
    (schedAdd_still _ pid).calm.keepsFiles)
  apply KeepsFiles.setPcb <;> rfl

theorem launch_keepsFiles (k : Kernel) (child entry : Nat) :
    KeepsFiles k (launch k child entry) := by
  unfold launch
  refine (procInitFrame_keepsFiles k child entry).trans (KeepsFiles.trans ?_
    (schedAdd_still _ child).calm.keepsFiles)
  apply KeepsFiles.setPcb <;> rfl

theorem resumed_keepsFiles (k : Kernel) (self : Nat) (cont : Cont) :
    KeepsFiles k (resumed k self cont) := by
  cases cont with
  | wait pid outCode => apply KeepsFiles.setPcb <;> rfl
  | _ => exact (Calm.refl k).keepsFiles

theorem OpenFiles.keeps (hfiles : OpenFiles k) (hkeeps : KeepsFiles k k')
    (hunused : ∀ pid, k'.state pid = .unused → k.state pid = .unused) :
    OpenFiles k' := by
  have htables : k'.tables = k.tables := funext hkeeps.table
  have hquiet := hkeeps.store hfiles.counted.typed
  refine ⟨?_, ?_, ?_⟩
  · rw [htables]
    exact hfiles.counted.quiet hquiet
  · rw [htables]
    exact fun pid hpid => hfiles.blank pid (hunused pid hpid)
  · intro pid r hr
    rw [hkeeps.kstack] at hr
    exact hquiet.harmless.notFile (hfiles.kstack pid r hr)

theorem OpenFiles.calm (hfiles : OpenFiles k) (hcalm : Calm k k') :
    OpenFiles k' :=
  hfiles.keeps hcalm.keepsFiles
    fun _ => (hcalm.toStirs.state_iff (by decide) (by decide)).mp

theorem OpenFiles.switches (hfiles : OpenFiles k) {esp : Frame}
    (hswitch : Switches k esp k') : OpenFiles k' :=
  hfiles.keeps hswitch.keepsFiles fun pid => (hswitch.unused_iff pid).mp

theorem Leaves.unused {last : ProcState} (hleaves : Leaves k self last k')
    (hlast : last ≠ .unused) (pid : Nat) (hpid : k'.state pid = .unused) :
    k.state pid = .unused := by
  by_cases heq : pid = self
  · rw [heq, hleaves.ends] at hpid
    exact absurd hpid hlast
  · exact (hleaves.state_iff heq (by decide) (by decide)).mp hpid

theorem OpenFiles.leaves {last : ProcState} (hfiles : OpenFiles k)
    (hleaves : Leaves k self last k') (hlast : last ≠ .unused)
    (hkeeps : KeepsFiles k k') : OpenFiles k' :=
  hfiles.keeps hkeeps (hleaves.unused hlast)

theorem OpenFiles.toCounted (hfiles : OpenFiles k) :
    TablesCounted k.store k.store k.tables [] [] :=
  ⟨by simpa using hfiles.counted, fun _ href => href⟩

/-- The table of a process is replaced together with the heap. -/
theorem OpenFiles.withTable (hfiles : OpenFiles k)
    (hused : k.state pid ≠ .unused) {result : List Nat × Store × FdTable}
    (hcounted : TablesCounted k.store result.2.1
      (Function.update k.tables pid result.2.2) [] []) :
    OpenFiles (withTable k pid result) := by
  have htables : ((k.setStore result.2.1).setPcb pid
      { k.procs pid with fdTable := result.2.2 }).tables =
      Function.update k.tables pid result.2.2 := by
    funext other
    by_cases hother : other = pid
    · subst hother
      simp [Kernel.tables, Kernel.setPcb]
    · simp [Kernel.tables, Kernel.setPcb, Kernel.setStore, hother]
  have hstirs : Stirs (k.setStore result.2.1) ((k.setStore result.2.1).setPcb
      pid { k.procs pid with fdTable := result.2.2 }) :=
    Stirs.setPcb rfl rfl (.inl rfl)
  have hset : OpenFiles ((k.setStore result.2.1).setPcb pid
      { k.procs pid with fdTable := result.2.2 }) := by
    refine ⟨?_, ?_, ?_⟩
    · rw [htables]
      exact hcounted.toInv
    · intro other hother fd hfd
      have hold : k.state other = .unused :=
        (hstirs.state_iff (by decide) (by decide)).mp hother
      have hne : other ≠ pid := by
        rintro rfl
        exact hused hold
      rw [htables, Function.update_of_ne hne]
      exact hfiles.blank other hold fd hfd
    · intro other r hr
      rw [show (Kernel.procs _ other).kstackBase = (k.procs other).kstackBase
        from congrArg Kin.kstackBase (hstirs.kin other)] at hr
      exact hcounted.since r (hfiles.kstack other r hr)
  exact hset.calm (wakeAll_calm _ result.1)

theorem withTable_table (k : Kernel) (pid : Nat)
    (result : List Nat × Store × FdTable) :
    (withTable k pid result).tables pid = result.2.2 := by
  refine ((wakeAll_calm _ result.1).table pid).trans ?_
  rw [procs_setPcb_self]

theorem closeFiles_openFiles (hfiles : OpenFiles k)
    (hpid : pid < maxProcs) (hused : k.state pid ≠ .unused) :
    OpenFiles (closeFiles k pid) :=
  hfiles.withTable hused
    (fdCloseList_counted hfiles.toCounted (by decide) hpid _)

theorem shareFiles_openFiles {parent child : Nat} (hfiles : OpenFiles k)
    (hparent : parent < maxProcs) (hchild : child < maxProcs)
    (hne : parent ≠ child) (hused : k.state child ≠ .unused)
    (hempty : ∀ fd < fdMax, k.tables child fd = none) :
    OpenFiles (shareFiles k parent child) :=
  hfiles.withTable hused (fdShareList_counted hfiles.toCounted (by decide)
    hparent hchild hne List.nodup_range (fun _ => List.mem_range.mp)
    fun fd hmem => hempty fd (List.mem_range.mp hmem))

end Frames

section Calls

variable {k k' : Kernel} {self : Nat}

theorem OpenFiles.setStore (hfiles : OpenFiles k) {store : Store}
    (hcounted : TablesCounted k.store store k.tables [] []) :
    OpenFiles (k.setStore store) :=
  ⟨hcounted.toInv, hfiles.blank,
    fun pid r hr => hcounted.since r (hfiles.kstack pid r hr)⟩

theorem sysOpen_openFiles (hfiles : OpenFiles k) (hself : self < maxProcs)
    (hused : k.state self ≠ .unused) (path : Option (List UInt8))
    (flags : UInt32) : OpenFiles (sysOpen k self path flags).2 := by
  unfold sysOpen
  cases path with
  | none => exact hfiles
  | some path =>
      dsimp only
      rcases vfsOpen_cases hfiles.counted.typed path flags with
        ⟨s', hopen, hquiet⟩ | ⟨v, s₁, offset, hv, hquiet, hopen⟩
      · rw [hopen]
        exact hfiles.setStore (hfiles.toCounted.quiet hquiet)
      · rw [hopen]
        have hcounted := (hfiles.toCounted.quiet hquiet).opened hv offset flags
          (by decide) fun owes hmem => .inl hmem
        dsimp only
        cases hinstall : fdInstall (k.procs self).fdTable s₁.next with
        | none =>
            exact (hfiles.setStore (hcounted.closeHeld (by decide))).calm
              (wakeAll_calm _ _)
        | some slot =>
            obtain ⟨fd, table⟩ := slot
            obtain ⟨hfd, hfree, rfl⟩ := fdInstall_eq_some hinstall
            apply hfiles.withTable hused
            exact hcounted.install (mem_slots.mpr ⟨hself, hfd⟩) hfree

theorem sysClose_openFiles (hfiles : OpenFiles k) (hself : self < maxProcs)
    (hused : k.state self ≠ .unused) (fd : Nat) :
    OpenFiles (sysClose k self fd).2 := by
  unfold sysClose
  split
  · exact hfiles
  · exact hfiles.withTable hused
      (fdClose_counted hfiles.toCounted (by decide) hself fd)

/-- `SYS_PIPE` succeeds, or is refused before it does anything. -/
def pipeSucceeds (k : Kernel) (self : Nat) (buf : Bool) : Bool :=
  !syscallValidatePtr buf 8 ||
    (pipeCreate k.store (k.procs self).fdTable).fds.isSome

theorem sysPipe_openFiles (hfiles : OpenFiles k) (hself : self < maxProcs)
    (hused : k.state self ≠ .unused) {buf : Bool}
    (hsucceeds : pipeSucceeds k self buf = true) :
    OpenFiles (sysPipe k self buf).2 := by
  unfold sysPipe
  unfold pipeSucceeds at hsucceeds
  cases hvalid : syscallValidatePtr buf 8 with
  | false => exact hfiles
  | true =>
      rw [hvalid, Bool.not_true, Bool.false_or, Option.isSome_iff_exists]
        at hsucceeds
      obtain ⟨fds, hfds⟩ := hsucceeds
      have hcounted := pipeCreate_counted hfiles.toCounted hself hfds
      dsimp only
      rw [if_neg (by simp), hfds]
      exact hfiles.withTable hused hcounted

theorem openFile_eq_some {fd : Nat} {f : Ref}
    (hopen : openFile k self fd = some f) :
    fd < fdMax ∧ k.tables self fd = some f := by
  unfold openFile at hopen
  split_ifs at hopen with hrange
  exact ⟨Nat.lt_of_not_le hrange, hopen⟩

theorem fdClose_table {s : Store} {table : FdTable} {fd : Nat}
    (hfd : fd < fdMax) :
    (fdClose s table fd).2.2 fd = none ∧
      ∀ other, other ≠ fd → (fdClose s table fd).2.2 other = table other := by
  unfold fdClose
  rw [if_neg (Nat.not_le.mpr hfd)]
  cases hslot : table fd with
  | none => exact ⟨hslot, fun _ _ => rfl⟩
  | some f =>
      exact ⟨Function.update_self _ _ _,
        fun other hother => Function.update_of_ne hother _ _⟩

theorem sysDup2_openFiles (hfiles : OpenFiles k) (hself : self < maxProcs)
    (hused : k.state self ≠ .unused) (oldfd newfd : Nat) :
    OpenFiles (sysDup2 k self oldfd newfd).2 := by
  unfold sysDup2
  cases hopen : openFile k self oldfd with
  | none => exact hfiles
  | some f =>
      obtain ⟨holdfd, hslot⟩ := openFile_eq_some hopen
      dsimp only
      split_ifs with hrange hsame
      · exact hfiles
      · exact hfiles
      have hnewfd : newfd < fdMax := Nat.lt_of_not_le hrange
      have hclose := hfiles.withTable hused
        (fdClose_counted hfiles.toCounted (by decide) hself newfd)
      have htable := withTable_table k self
        (fdClose k.store (k.procs self).fdTable newfd)
      have hstirs := withTable_stirs k self
        (fdClose k.store (k.procs self).fdTable newfd)
      obtain ⟨hfree, hothers⟩ := @fdClose_table k.store (k.procs self).fdTable
        newfd hnewfd
      rw [← htable] at hfree hothers
      change OpenFiles (withTable k self
        (fdClose k.store (k.procs self).fdTable newfd)) at hclose
      generalize withTable k self
        (fdClose k.store (k.procs self).fdTable newfd) = k₁
        at hclose hstirs hfree hothers ⊢
      apply hclose.withTable
      · exact mt (hstirs.state_iff (by decide) (by decide)).mp hused
      · apply hclose.toCounted.shareSlot (by decide)
          (mem_slots.mpr ⟨hself, hnewfd⟩) hfree
        apply slotCount_pos (mem_slots.mpr ⟨hself, holdfd⟩)
        exact (hothers oldfd hsame).trans hslot

theorem Creates.openFiles {priority child : Nat}
    (hcreates : Creates k priority child k') (hfiles : OpenFiles k) :
    OpenFiles k' := by
  obtain ⟨kstack, store, hmalloc, hstore, hprocs⟩ := hcreates.entry
  have hquiet := @kmalloc_quiet k.store hfiles.counted.typed .kstack
    (by decide) (by decide) (by decide)
  rw [hmalloc] at hquiet
  have hcounted := fdTableInit_counted
    (hfiles.toCounted.quiet hquiet.quiet).rebase hcreates.range.2
    (hfiles.blank child hcreates.free)
  have hself : k'.procs child = embryoPcb child priority k.tickCount kstack
      (fdTableInit store).2 := by
    rw [hprocs]
    exact Function.update_self _ _ _
  have hothers : ∀ other, other ≠ child → k'.procs other = k.procs other := by
    intro other hother
    rw [hprocs]
    exact Function.update_of_ne hother _ _
  have htables : k'.tables =
      Function.update k.tables child (fdTableInit store).2 := by
    funext other
    by_cases hother : other = child
    · rw [hother, Function.update_self, Kernel.tables, hself]
      rfl
    · rw [Function.update_of_ne hother, Kernel.tables, hothers other hother]
      rfl
  refine ⟨?_, ?_, ?_⟩
  · rw [htables, hstore]
    exact hcounted.toInv
  · intro other hother fd hfd
    have hne : other ≠ child := by
      rintro rfl
      rw [Kernel.state, hself] at hother
      exact absurd hother ProcState.noConfusion
    rw [Kernel.state, hothers other hne] at hother
    rw [htables, Function.update_of_ne hne]
    exact hfiles.blank other hother fd hfd
  · intro other r hr
    rw [hstore]
    by_cases hother : other = child
    · rw [hother, hself] at hr
      cases hr
      exact hcounted.since kstack (hquiet.ref kstack rfl)
    · rw [hothers other hother] at hr
      exact hcounted.since r
        (hquiet.quiet.harmless.notFile (hfiles.kstack other r hr))

theorem adoptChild_openFiles {child : Nat} (hfiles : OpenFiles k)
    (hself : self < maxProcs) (hchild : child < maxProcs) (hne : self ≠ child)
    (hused : k.state child ≠ .unused) :
    OpenFiles (adoptChild k self child) := by
  have hset : KeepsFiles k (k.setPcb child
      { k.procs child with ppid := (k.procs self).pid }) := by
    apply KeepsFiles.setPcb <;> rfl
  have hstate : ∀ pid, (k.setPcb child { k.procs child with
      ppid := (k.procs self).pid }).state pid = k.state pid :=
    forall_setPcb (P := fun pid new => new.state = k.state pid) rfl
      fun _ _ => rfl
  unfold adoptChild
  dsimp only
  have hfiles₁ := hfiles.keeps hset fun pid => (hstate pid ▸ ·)
  have hused₁ := hstate child ▸ hused
  generalize k.setPcb child { k.procs child with ppid := (k.procs self).pid } =
    k₁ at hfiles₁ hused₁ ⊢
  have hfiles₂ := closeFiles_openFiles hfiles₁ hchild hused₁
  have hstirs := withTable_stirs k₁ child
    (fdTableCloseAll k₁.store (k₁.procs child).fdTable)
  apply shareFiles_openFiles hfiles₂ hself hchild hne
  · exact mt (hstirs.state_iff (by decide) (by decide)).mp hused₁
  · intro fd hfd
    rw [closeFiles, withTable_table]
    exact fdTableCloseAll_table _ _ hfd

theorem procFork_openFiles {entry : Nat} {result : Option Nat × Kernel}
    (hfiles : OpenFiles k) (hinv : TableInv k)
    (hself : k.state self ≠ .unused)
    (hfork : procFork k self entry = some result) : OpenFiles result.2 := by
  rcases procFork_cases hinv hfork with
    ⟨-, hprocs, -, hstore, -⟩ | ⟨child, k₁, hcreates, heq, -⟩
  · apply hfiles.keeps ⟨?_, ?_, hstore⟩
    all_goals
      intro pid
      simp only [Kernel.state, hprocs, imp_self]
  · have hne : self ≠ child := by
      rintro rfl
      exact hself hcreates.free
    obtain ⟨hembryo, hkstack⟩ := hcreates.embryo
    have hused : k₁.state child ≠ .unused := by
      rw [hembryo]
      exact ProcState.noConfusion
    have hadopt := adoptChild_openFiles (hcreates.openFiles hfiles)
      (hinv.range self hself).2 hcreates.range.2 hne hused
    rw [heq]
    apply hadopt.keeps (launch_keepsFiles _ child entry)
    intro pid hpid
    have hoff := launch_off (adoptChild k₁ self child) child entry
    by_cases heq' : pid = child
    · subst heq'
      rw [(hcreates.forks hself).ready] at hpid
      cases hpid
    · exact (hoff.state_iff heq' (by decide) (by decide)).mp hpid

theorem pidFree_frame (k : Kernel) (pid : Nat) :
    (pidFree k pid).procs = k.procs ∧ (pidFree k pid).store = k.store := by
  unfold pidFree
  split_ifs <;> exact ⟨rfl, rfl⟩

/-- An entry without descriptors is wiped. -/
theorem OpenFiles.vacate (hfiles : OpenFiles k) {pid : Nat} {pcb : Pcb}
    (hempty : ∀ fd < fdMax, k.tables pid fd = none)
    (htable : pcb.fdTable = FdTable.empty) (hkstack : pcb.kstackBase = none) :
    OpenFiles (k.setPcb pid pcb) := by
  have htables : ∀ other, ∀ fd < fdMax,
      (k.setPcb pid pcb).tables other fd = k.tables other fd := by
    refine forall_setPcb (P := fun other new => ∀ fd < fdMax,
      new.fdTable fd = k.tables other fd) ?_ fun _ _ _ _ => rfl
    intro fd hfd
    rw [htable, hempty fd hfd]
    rfl
  refine ⟨?_, ?_, ?_⟩
  · rw [slotCount_congr fun other _ => htables other]
    exact hfiles.counted
  · intro other hother fd hfd
    rw [htables other fd hfd]
    by_cases heq : other = pid
    · rw [heq]
      exact hempty fd hfd
    · apply hfiles.blank other _ fd hfd
      rw [← hother, Kernel.state, Kernel.state, Kernel.setPcb]
      simp [heq]
  · refine forall_setPcb (P := fun _ new => ∀ r, new.kstackBase = some r →
      NotFile k.store r) ?_ fun other _ => hfiles.kstack other
    rw [hkstack]
    rintro r ⟨⟩

theorem procDestroy_openFiles {child : Nat} (hfiles : OpenFiles k)
    (hinv : TableInv k) (hdestroy : procDestroy k child = some k') :
    OpenFiles k' := by
  have hgone := procDestroy_destroys hinv hdestroy
  have hchild := hinv.zombie_range hgone.zombie
  unfold procDestroy at hdestroy
  split_ifs at hdestroy
  have hfree := hfiles.setStore (hfiles.toCounted.quiet
    (kfreeOption_quiet hfiles.counted.typed fun r hr =>
      hfiles.kstack child r hr))
  have hclosed := closeFiles_openFiles hfree hchild.2
    (show k.state child ≠ .unused by
      rw [hgone.zombie]
      exact ProcState.noConfusion)
  have hempty : ∀ fd < fdMax, (closeFiles (k.setStore (k.store.kfreeOption
      (k.procs child).kstackBase)) child).tables child fd = none := by
    intro fd hfd
    rw [closeFiles, withTable_table]
    exact fdTableCloseAll_table _ _ hfd
  rw [← Option.some.inj hdestroy]
  dsimp only
  generalize closeFiles (k.setStore (k.store.kfreeOption
    (k.procs child).kstackBase)) child = k₁ at hclosed hempty ⊢
  obtain ⟨hprocs, hstore⟩ := pidFree_frame k₁ (k₁.procs child).pid
  have hfreed : OpenFiles (pidFree k₁ (k₁.procs child).pid) := by
    apply hclosed.keeps ⟨?_, ?_, ?_⟩
    · intro pid
      simp only [Kernel.state, hprocs, imp_self]
    · intro pid
      rw [hprocs]
    · intro pid
      rw [hprocs]
    · rw [hstore]
      exact Quiet.refl
  apply hfreed.vacate _ rfl rfl
  intro fd hfd
  rw [Kernel.tables, hprocs]
  exact hempty fd hfd

theorem Handled.openFiles {cause : Cause} {outcome : Outcome}
    (hhandled : Handled self k cause outcome k') (hfiles : OpenFiles k)
    (hinv : TableInv k) (hcurrent : k.currentProc = some self)
    (hpipes : ∀ buf, cause = .call (.pipe buf) →
      OpenFiles (sysPipe k self buf).2) : OpenFiles k' := by
  have hused := hinv.current self hcurrent
  have hself := (hinv.range self hused).2
  cases hhandled with
  | calm hcalm => exact hfiles.calm hcalm
  | @sleeps _ _ k₁ hcalm _ =>
      exact (hfiles.calm hcalm).leaves (blockSelf_leaves k₁ self) (by decide)
        (blockSelf_keepsFiles k₁ self)
  | exits code =>
      exact hfiles.leaves (procExit_leaves k self code) (by decide)
        (procExit_keepsFiles k self code)
  | forks hfork => exact procFork_openFiles hfiles hinv hused hfork
  | @execs pid entry p _ _ hget =>
      apply hfiles.keeps (procExec_keepsFiles k p entry)
      rcases procExec_restarts k p entry with ⟨-, hsame⟩ | ⟨-, hrestarts⟩
      · rw [hsame]
        exact fun _ => id
      · intro other hother
        by_cases heq : other = p
        · rw [heq, hrestarts.ready] at hother
          cases hother
        · exact (hrestarts.state_iff heq (by decide) (by decide)).mp hother
  | @opens path flags _ _ _ hopen =>
      have hafter := sysOpen_openFiles hfiles hself hused path flags
      rw [hopen] at hafter
      exact hafter
  | @closes fd _ _ _ hclose =>
      have hafter := sysClose_openFiles hfiles hself hused fd
      rw [hclose] at hafter
      exact hafter
  | @pipes buf _ _ _ hpipe =>
      have hafter := hpipes buf rfl
      rw [hpipe] at hafter
      exact hafter
  | @dups oldfd newfd _ _ _ hdup =>
      have hafter := sysDup2_openFiles hfiles hself hused oldfd newfd
      rw [hdup] at hafter
      exact hafter
  | reaps _ _ hdestroy => exact procDestroy_openFiles hfiles hinv hdestroy
  | @waits _ pid _ _ _ =>
      exact hfiles.leaves (waitBlock_leaves k self pid) (by decide)
        (waitBlock_keepsFiles k self pid)

/-- No `SYS_PIPE` fails half-way. -/
def pipesSucceed (k : Kernel) : Event → Bool
  | .syscall (.pipe buf) =>
      match k.currentProc with
      | none => true
      | some self => pipeSucceeds k self buf
  | _ => true

theorem Segment.openFiles {event : Event} (hsegment : Segment k event k')
    (hfiles : OpenFiles k) (hinv : TableInv k)
    (hpipes : ∀ self buf, event = .syscall (.pipe buf) →
      k.currentProc = some self → OpenFiles (sysPipe k self buf).2) :
    OpenFiles k' := by
  cases hsegment with
  | interrupt hcalm _ hswitch => exact (hfiles.calm hcalm).switches hswitch
  | @call self call _ _ _ hcurrent _ hhandled hswitch =>
      refine (hhandled.openFiles hfiles hinv hcurrent ?_).switches hswitch
      rintro buf ⟨⟩
      exact hpipes self buf rfl hcurrent
  | @resume self _ cont _ _ _ hcurrent _ hhandled hswitch =>
      have hleaves := resumed_leaves k self cont
      have hself := hinv.current self hcurrent
      have hfiles' := hfiles.leaves hleaves hself (resumed_keepsFiles k self cont)
      refine (hhandled.openFiles hfiles' (hinv.leaves hleaves hself hself)
        (hleaves.current.trans hcurrent) ?_).switches hswitch
      rintro buf ⟨⟩

theorem Segment.openFiles_of_succeed {event : Event}
    (hsegment : Segment k event k') (hfiles : OpenFiles k) (hinv : TableInv k)
    (hpipes : pipesSucceed k event = true) : OpenFiles k' := by
  refine hsegment.openFiles hfiles hinv ?_
  rintro self buf rfl hcurrent
  have hused := hinv.current self hcurrent
  simp only [pipesSucceed, hcurrent] at hpipes
  exact sysPipe_openFiles hfiles (hinv.range self hused).2 hused hpipes

theorem kernelCall_openFiles {call : KernelCall} (hfiles : OpenFiles k)
    (hinv : TableInv k) (hcall : k.call call = some k') : OpenFiles k' := by
  cases call with
  | procCreate priority =>
      rw [← Option.some.inj hcall]
      rcases procCreate_cases hinv priority with
        ⟨k₁, hcreate, -, hprocs, -, hstore⟩ | ⟨child, k₁, hcreate, hcreates⟩
      · rw [hcreate]
        apply hfiles.keeps ⟨?_, ?_, hstore⟩
        all_goals
          intro pid
          simp only [Kernel.state, hprocs, imp_self]
      · rw [hcreate]
        exact hcreates.openFiles hfiles
  | procInitFrame pid entry =>
      obtain ⟨p, -, rfl⟩ := Option.map_eq_some_iff.mp hcall
      apply hfiles.keeps (procInitFrame_keepsFiles k p entry)
      intro other hother
      by_cases heq : other = p
      · subst heq
        rw [Kernel.state, procInitFrame_entry] at hother
        split_ifs at hother <;> exact hother
      · exact ((procInitFrame_off k p entry).state_iff heq (by decide)
          (by decide)).mp hother
  | procSetReady pid =>
      obtain ⟨p, -, hready⟩ := Option.bind_eq_some_iff.mp hcall
      apply hfiles.leaves (procSetReady_leaves hready) (by decide)
      obtain ⟨-, rfl⟩ := procSetReady_eq_some hready
      apply KeepsFiles.setPcb <;> rfl
  | schedAdd pid =>
      obtain ⟨p, -, rfl⟩ := Option.map_eq_some_iff.mp hcall
      exact hfiles.calm (schedAdd_still k p).calm
  | procWake pid =>
      obtain ⟨p, -, rfl⟩ := Option.map_eq_some_iff.mp hcall
      exact hfiles.calm (procWake_calm k p)

theorem schedStart_openFiles (hfiles : OpenFiles k)
    (hstart : schedStart k = some k') : OpenFiles k' := by
  unfold schedStart at hstart
  split at hstart
  · cases hstart
  rename_i first idx hpick
  have hleaves : Leaves k first .running (k.setPcb first { k.procs first with
      state := .running
      ticksScheduled :=
        MachineInt.u32 ((k.procs first).ticksScheduled + 1) }) := by
    apply Leaves.setPcb <;> rfl
  have hset : OpenFiles (k.setPcb first { k.procs first with
      state := .running
      ticksScheduled :=
        MachineInt.u32 ((k.procs first).ticksScheduled + 1) }) := by
    apply hfiles.leaves hleaves (by decide)
    apply KeepsFiles.setPcb <;> rfl
  rw [← Option.some.inj hstart]
  exact ⟨hset.counted, hset.blank, hset.kstack⟩

end Calls

/-- The heap before the first process. -/
def bootStore (refuses : Nat → Bool) : Store :=
  devfsInit (ramfsInit (Store.empty refuses))

theorem empty_typed (refuses : Nat → Bool) : Typed (Store.empty refuses) := by
  refine ⟨fun _ _ => rfl, ?_, ?_, ?_, ?_, ?_, ?_, ?_⟩
  · rintro v e - ⟨⟩
  · rintro ino b ⟨⟩
  · rintro ino entry ⟨⟩
  · rintro mount ⟨⟩
  · rintro v ⟨⟩
  · rintro v ⟨⟩
  · rintro v ⟨⟩

theorem empty_countInv (refuses : Nat → Bool) :
    CountInv (Store.empty refuses) (fun _ => 0) [] := by
  refine ⟨empty_typed refuses, ?_, ?_, ?_, ?_, ?_, ?_⟩
  · rintro f ⟨⟩
  · intro f
    exact ⟨fun h => (by cases h), fun h => absurd h (Nat.lt_irrefl 0)⟩
  · rintro f ⟨⟩
  · rintro v ⟨⟩
  · rintro p isWrite ⟨⟩
  · rintro p isWrite ⟨⟩

theorem slotCount_empty : slotCount (fun _ => FdTable.empty) = fun _ => 0 := by
  funext f
  apply Nat.eq_zero_of_not_pos
  intro hpos
  obtain ⟨slot, -, hslot⟩ := Occupancy.count_pos_iff.mp hpos
  cases hslot

theorem reset_openFiles (refuses : Nat → Bool) :
    OpenFiles (Kernel.reset (bootStore refuses)) := by
  have hquiet := fsInit_quiet (empty_typed refuses)
  refine ⟨?_, fun _ _ _ _ => rfl, ?_⟩
  · rw [show (Kernel.reset (bootStore refuses)).tables =
      fun _ => FdTable.empty from rfl, slotCount_empty]
    exact (empty_countInv refuses).quiet hquiet
  · rintro pid r ⟨⟩

/-- Every `SYS_PIPE` of the run succeeds, or is refused for its argument. -/
def LifeInput.pipesSucceed (k : Kernel) : LifeInput → Bool
  | .input (.event event) => Orion.pipesSucceed k event
  | _ => true

theorem live_openFiles {refuses : Nat → Bool} {inputs : List LifeInput}
    {k : Kernel}
    (hrun : Machine.exec (Machine.guarded LifeInput.pipesSucceed Kernel.live)
      (Kernel.reset (bootStore refuses)) inputs = some k) :
    TableInv k ∧ OpenFiles k := by
  have hstep : ∀ (j : Kernel) (input : LifeInput) (j' : Kernel),
      TableInv j ∧ OpenFiles j →
      Machine.guarded LifeInput.pipesSucceed Kernel.live j input = some j' →
      TableInv j' ∧ OpenFiles j' := by
    rintro j input j' ⟨hinv, hfiles⟩ hguarded
    obtain ⟨hguard, hstep⟩ := Machine.guarded_eq_some.mp hguarded
    cases input with
    | start =>
        exact ⟨schedStart_tableInv hinv hstep,
          schedStart_openFiles hfiles hstep⟩
    | input i =>
        refine ⟨stepInput_tableInv hinv hstep, ?_⟩
        cases i with
        | event e =>
            exact (step_segment hstep).openFiles_of_succeed hfiles hinv hguard
        | call c => exact kernelCall_openFiles hfiles hinv hstep
  exact Machine.exec_invariant hstep
    ⟨reset_tableInv _, reset_openFiles refuses⟩ hrun

/-- Reference counts are exact along every run: the count of an open file is
the number of descriptors that point to it, it is live as long as there is
one, and the count of a live vnode is the number of live files on it.  A step
frees a file exactly when it clears its last descriptor. -/
theorem openFiles_run_exact (refuses : Nat → Bool) (inputs : List LifeInput)
    (k : Kernel)
    (hrun : Machine.exec (Machine.guarded LifeInput.pipesSucceed Kernel.live)
      (Kernel.reset (bootStore refuses)) inputs = some k) :
    (∀ f, k.store.isLive .file f = true →
      (k.store.files f).refcount = slotCount k.tables f) ∧
    (∀ pid < maxProcs, ∀ fd < fdMax, ∀ f, k.tables pid fd = some f →
      k.store.isLive .file f = true) ∧
    (∀ v, k.store.isLive .vnode v = true →
      (k.store.vnodes v).refcount = (filesOn k.store v).card) ∧
    ∀ input k', Machine.guarded LifeInput.pipesSucceed Kernel.live k input =
        some k' →
      ∀ f, (k.store.isLive .file f = true ∧ k'.store.isLive .file f = false) ↔
        (0 < slotCount k.tables f ∧ slotCount k'.tables f = 0) := by
  have hlive : ∀ {j : Kernel}, OpenFiles j → ∀ f,
      j.store.isLive .file f = true ↔ 0 < slotCount j.tables f := by
    intro j hfiles f
    rw [Store.isLive, beq_iff_eq]
    exact hfiles.counted.live f
  obtain ⟨-, hfiles⟩ := live_openFiles hrun
  refine ⟨?_, ?_, ?_, ?_⟩
  · intro f hf
    exact hfiles.counted.count f (beq_iff_eq.mp hf)
  · intro pid hpid fd hfd f hslot
    exact (hlive hfiles f).mpr (slotCount_pos (mem_slots.mpr ⟨hpid, hfd⟩) hslot)
  · intro v hv
    exact hfiles.counted.vnode v (beq_iff_eq.mp hv)
  · intro input k' hstep f
    have hrun' := Machine.exec_append hrun
      ((Machine.exec_cons_eq_some _).mpr ⟨k', hstep, Machine.exec_nil _ _⟩)
    obtain ⟨-, hfiles'⟩ := live_openFiles hrun'
    rw [hlive hfiles, ← Bool.not_eq_true, hlive hfiles', Nat.pos_iff_ne_zero,
      Nat.pos_iff_ne_zero, not_not]

namespace OpenFilesWitness

/-- Process 1 makes a pipe, copies its write end to descriptor 2 and forks. -/
def inputs : List LifeInput :=
  [.input (.call (.procCreate 16)), .input (.call (.procInitFrame 1 0x1000)),
    .input (.call (.procSetReady 1)), .input (.call (.schedAdd 1)), .start,
    .input (.event (.syscall (.pipe true))),
    .input (.event (.syscall (.dup2 4 2))),
    .input (.event (.syscall (.fork 0x2000)))]

theorem shared_run :
    (Machine.exec (Machine.guarded LifeInput.pipesSucceed Kernel.live)
      (Kernel.reset (bootStore fun _ => false)) inputs).map (fun k =>
        ((k.tables 2 4).map fun f =>
          (k.store.isLive .file f, (k.store.files f).refcount),
          k.tables 1 2 == k.tables 2 4)) =
      some (some (true, 4), true) := by
  decide +kernel

theorem shared_write_end : ∃ k f, Machine.exec
    (Machine.guarded LifeInput.pipesSucceed Kernel.live)
      (Kernel.reset (bootStore fun _ => false)) inputs = some k ∧
    k.tables 2 4 = some f ∧ slotCount k.tables f = 4 := by
  obtain ⟨k, hrun, hview⟩ := Option.map_eq_some_iff.mp shared_run
  obtain ⟨f, hslot, hfile⟩ :=
    Option.map_eq_some_iff.mp (congrArg Prod.fst hview)
  have hexact := (openFiles_run_exact _ _ k hrun).1 f (congrArg Prod.fst hfile)
  exact ⟨k, f, hrun, hslot, hexact.symm.trans (congrArg Prod.snd hfile)⟩

end OpenFilesWitness

end Orion
