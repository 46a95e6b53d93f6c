/-
The process table and the pid bitmap agree: a bit is set exactly for the
entries in use, and no pid below the search hint is free.
-/
import Orion.ReadyQueue
import Orion.Segments

namespace Orion

/-- Everything but the entry of `pid` has at most stirred. -/
structure StirsOff (pid : Nat) (k k' : Kernel) : Prop where
  kin : ∀ other, other ≠ pid →
    (k'.procs other).kin = (k.procs other).kin
  frame : ∀ other, other ≠ pid →
    (k'.procs other).espKernel = (k.procs other).espKernel
  state : ∀ other, other ≠ pid → k'.state other = k.state other ∨
    (k.state other = .blocked ∧ k'.state other = .ready)
  current : k'.currentProc = k.currentProc

section Entries

variable {k k' k'' : Kernel} {pid : Nat}

theorem Stirs.off (hstirs : Stirs k k') (pid : Nat) : StirsOff pid k k' :=
  ⟨fun other _ => hstirs.kin other, fun other _ => hstirs.frame other,
    fun other _ => hstirs.state other, hstirs.current⟩

theorem StirsOff.trans (hfirst : StirsOff pid k k')
    (hsecond : StirsOff pid k' k'') : StirsOff pid k k'' := by
  refine ⟨fun other hother =>
    (hsecond.kin other hother).trans (hfirst.kin other hother),
    fun other hother =>
      (hsecond.frame other hother).trans (hfirst.frame other hother), ?_,
    hsecond.current.trans hfirst.current⟩
  intro other hother
  rcases hfirst.state other hother with hsame | ⟨hblocked, hready⟩
  · rcases hsecond.state other hother with hsame' | ⟨hblocked, hready⟩
    · exact .inl (hsame'.trans hsame)
    · exact .inr ⟨hsame ▸ hblocked, hready⟩
  · rcases hsecond.state other hother with hsame' | ⟨hblocked', -⟩
    · exact .inr ⟨hblocked, hsame'.trans hready⟩
    · rw [hready] at hblocked'
      cases hblocked'

theorem StirsOff.of_procs
    (hprocs : ∀ other, other ≠ pid → k'.procs other = k.procs other)
    (hcurrent : k'.currentProc = k.currentProc) : StirsOff pid k k' := by
  refine ⟨?_, ?_, ?_, hcurrent⟩
  all_goals
    intro other hother
    simp only [Kernel.state, hprocs other hother, true_or]

theorem StirsOff.setPcb (k : Kernel) (pid : Nat) (pcb : Pcb) :
    StirsOff pid k (k.setPcb pid pcb) :=
  .of_procs (fun _ hother => Function.update_of_ne hother ..) rfl

theorem StirsOff.state_iff (hoff : StirsOff pid k k') {other : Nat}
    (hother : other ≠ pid) {state : ProcState} (hblocked : state ≠ .blocked)
    (hready : state ≠ .ready) :
    k'.state other = state ↔ k.state other = state := by
  rcases hoff.state other hother with hsame | ⟨hold, hnew⟩
  · rw [hsame]
  · rw [hold, hnew]
    exact ⟨fun h => absurd h.symm hready, fun h => absurd h.symm hblocked⟩

theorem procs_setPcb_self (k : Kernel) (pid : Nat) (pcb : Pcb) :
    (k.setPcb pid pcb).procs pid = pcb := Function.update_self _ _ _

/-- The entry of a process that goes to sleep or ends. -/
structure Leaves (k : Kernel) (p : Nat) (last : ProcState) (k' : Kernel) :
    Prop extends StirsOff p k k' where
  ends : k'.state p = last
  pid : (k'.procs p).pid = (k.procs p).pid
  ppid : (k'.procs p).ppid = (k.procs p).ppid
  kstack : (k'.procs p).kstackBase = (k.procs p).kstackBase
  stack : (k'.procs p).espKernel = (k.procs p).espKernel
  bitmap : k'.pidBitmap = k.pidBitmap
  hint : k'.pidSearchHint = k.pidSearchHint

theorem Leaves.of_stirs {last : ProcState} (hstirs : Stirs k k')
    (hleaves : Leaves k' pid last k'') : Leaves k pid last k'' where
  toStirsOff := (hstirs.off pid).trans hleaves.toStirsOff
  ends := hleaves.ends
  pid := hleaves.pid.trans (congrArg Kin.pid (hstirs.kin pid))
  ppid := hleaves.ppid.trans (congrArg Kin.ppid (hstirs.kin pid))
  kstack := hleaves.kstack.trans (congrArg Kin.kstackBase (hstirs.kin pid))
  stack := hleaves.stack.trans (hstirs.frame pid)
  bitmap := hleaves.bitmap.trans hstirs.bitmap
  hint := hleaves.hint.trans hstirs.hint

theorem Leaves.stirs {last : ProcState} (hleaves : Leaves k pid last k')
    (hblocked : last ≠ .blocked) (hstirs : Stirs k' k'') :
    Leaves k pid last k'' where
  toStirsOff := hleaves.toStirsOff.trans (hstirs.off pid)
  ends := by
    rcases hstirs.state pid with hsame | ⟨hold, -⟩
    · exact hsame.trans hleaves.ends
    · exact absurd (hleaves.ends.symm.trans hold) hblocked
  pid := (congrArg Kin.pid (hstirs.kin pid)).trans hleaves.pid
  ppid := (congrArg Kin.ppid (hstirs.kin pid)).trans hleaves.ppid
  kstack := (congrArg Kin.kstackBase (hstirs.kin pid)).trans hleaves.kstack
  stack := (hstirs.frame pid).trans hleaves.stack
  bitmap := hstirs.bitmap.trans hleaves.bitmap
  hint := hstirs.hint.trans hleaves.hint

theorem Leaves.setPcb {pcb : Pcb} {last : ProcState} (hlast : pcb.state = last)
    (hpid : pcb.pid = (k.procs pid).pid)
    (hppid : pcb.ppid = (k.procs pid).ppid)
    (hkstack : pcb.kstackBase = (k.procs pid).kstackBase)
    (hstack : pcb.espKernel = (k.procs pid).espKernel) :
    Leaves k pid last (k.setPcb pid pcb) := by
  have hself := procs_setPcb_self k pid pcb
  refine ⟨StirsOff.setPcb k pid pcb,
    (state_setPcb_self k pid pcb).trans hlast, ?_, ?_, ?_, ?_, rfl, rfl⟩
  all_goals
    rw [hself]
    assumption

theorem procSetReady_leaves (hready : procSetReady k pid = some k') :
    Leaves k pid .ready k' := by
  obtain ⟨-, rfl⟩ := procSetReady_eq_some hready
  apply Leaves.setPcb <;> rfl

theorem blockSelf_leaves (k : Kernel) (self : Nat) :
    Leaves k self .blocked (blockSelf k self) := by
  have hset : Leaves k self .blocked (k.setPcb self
      { k.procs self with state := .blocked }) := by
    apply Leaves.setPcb <;> rfl
  have hstill := schedRemove_still (k.setPcb self
    { k.procs self with state := .blocked }) self
  have hself : (schedRemove (k.setPcb self
      { k.procs self with state := .blocked }) self).state self = .blocked :=
    (hstill.state self).trans hset.ends
  exact ⟨hset.toStirsOff.trans (hstill.calm.toStirs.off self), hself,
    (congrArg Kin.pid (hstill.kin self)).trans hset.pid,
    (congrArg Kin.ppid (hstill.kin self)).trans hset.ppid,
    (congrArg Kin.kstackBase (hstill.kin self)).trans hset.kstack,
    (hstill.frame self).trans hset.stack, rfl, rfl⟩

theorem waitBlock_leaves (k : Kernel) (self pid : Nat) :
    Leaves k self .blocked (waitBlock k self pid) := by
  have hset : Leaves k self (k.state self) (k.setPcb self
      { k.procs self with waitForPid := pid, waiting := true,
                          wakeupTick := 0 }) := by
    apply Leaves.setPcb <;> rfl
  have hblock := blockSelf_leaves (k.setPcb self
    { k.procs self with waitForPid := pid, waiting := true,
                        wakeupTick := 0 }) self
  exact ⟨hset.toStirsOff.trans hblock.toStirsOff, hblock.ends,
    hblock.pid.trans hset.pid, hblock.ppid.trans hset.ppid,
    hblock.kstack.trans hset.kstack, hblock.stack.trans hset.stack, rfl, rfl⟩

theorem procExit_leaves (k : Kernel) (self : Nat) (code : Int) :
    Leaves k self .zombie (procExit k self code) := by
  have hset : Leaves k self .zombie (k.setPcb self
      { k.procs self with exitCode := code, state := .zombie }) := by
    apply Leaves.setPcb <;> rfl
  exact hset.stirs (by decide) ((wakeParent_calm _ self).toStirs.trans
    (schedRemove_still _ self).calm.toStirs)

end Entries

/-- The table, the bitmap and the search hint fit together. -/
structure TableInv (k : Kernel) : Prop where
  kernel : WordBitmap.test k.pidBitmap pidKernel = true
  bit : ∀ pid, Allocatable pid →
    (WordBitmap.test k.pidBitmap pid = true ↔ k.state pid ≠ .unused)
  pid : ∀ pid, (k.procs pid).pid = pid
  hint : ∀ pid, pidInit ≤ pid → pid < k.pidSearchHint.val →
    k.state pid ≠ .unused
  range : ∀ pid, k.state pid ≠ .unused → Allocatable pid
  current : ∀ pid, k.currentProc = some pid → k.state pid ≠ .unused
  parent : ∀ pid, k.state pid ≠ .unused → (k.procs pid).ppid ≠ pid

section Invariant

variable {k k' : Kernel} {self : Nat}

/-- The invariant looks at pids and at which entries are in use. -/
theorem TableInv.of_same (hinv : TableInv k)
    (hunused : ∀ pid, k'.state pid = .unused ↔ k.state pid = .unused)
    (hpid : ∀ pid, (k'.procs pid).pid = (k.procs pid).pid)
    (hppid : ∀ pid, (k'.procs pid).ppid = (k.procs pid).ppid)
    (hbitmap : k'.pidBitmap = k.pidBitmap)
    (hhint : k'.pidSearchHint = k.pidSearchHint)
    (hcurrent : ∀ pid, k'.currentProc = some pid → k.state pid ≠ .unused) :
    TableInv k' := by
  have hused : ∀ pid, k'.state pid ≠ .unused ↔ k.state pid ≠ .unused :=
    fun pid => not_congr (hunused pid)
  constructor
  · rw [hbitmap]
    exact hinv.kernel
  · intro pid hpid
    rw [hbitmap, hused]
    exact hinv.bit pid hpid
  · intro pid
    rw [hpid]
    exact hinv.pid pid
  · intro pid hlow hhigh
    rw [hhint] at hhigh
    exact (hused pid).mpr (hinv.hint pid hlow hhigh)
  · intro pid hpid
    exact hinv.range pid ((hused pid).mp hpid)
  · intro pid hpid
    exact (hused pid).mpr (hcurrent pid hpid)
  · intro pid hpid
    rw [hppid]
    exact hinv.parent pid ((hused pid).mp hpid)

theorem TableInv.stirs (hinv : TableInv k) (hstirs : Stirs k k') :
    TableInv k' := by
  apply hinv.of_same
  · exact fun pid => hstirs.state_iff (by decide) (by decide)
  · exact fun pid => congrArg Kin.pid (hstirs.kin pid)
  · exact fun pid => congrArg Kin.ppid (hstirs.kin pid)
  · exact hstirs.bitmap
  · exact hstirs.hint
  · rw [hstirs.current]
    exact hinv.current

theorem Allocatable.ne_reserved {pid : Nat} (hpid : Allocatable pid) :
    ¬ (pid = pidKernel ∨ pid = pidInvalid) := by
  have hbounds : 1 ≤ pid ∧ pid < 256 := hpid
  simp only [pidKernel, pidInvalid]
  omega

/-- One entry changes, with its bit. -/
theorem TableInv.entry (hinv : TableInv k) {pid : Nat}
    (hoff : StirsOff pid k k') (hrange : Allocatable pid)
    (hbits : ∀ other, other ≠ pid → WordBitmap.test k'.pidBitmap other =
      WordBitmap.test k.pidBitmap other)
    (hbit : WordBitmap.test k'.pidBitmap pid = true ↔ k'.state pid ≠ .unused)
    (hpid : (k'.procs pid).pid = pid)
    (hppid : k'.state pid ≠ .unused → (k'.procs pid).ppid ≠ pid)
    (hhint : ∀ other, pidInit ≤ other → other < k'.pidSearchHint.val →
      k'.state other ≠ .unused)
    (hcurrent : k.currentProc = some pid → k'.state pid ≠ .unused) :
    TableInv k' := by
  have hused : ∀ other, other ≠ pid →
      (k'.state other ≠ .unused ↔ k.state other ≠ .unused) := fun other hother =>
    not_congr (hoff.state_iff hother (by decide) (by decide))
  constructor
  · rw [hbits pidKernel fun h => hrange.ne_reserved (.inl h.symm)]
    exact hinv.kernel
  · intro other hother
    by_cases heq : other = pid
    · exact heq ▸ hbit
    · rw [hbits other heq, hused other heq]
      exact hinv.bit other hother
  · intro other
    by_cases heq : other = pid
    · exact heq ▸ hpid
    · exact (congrArg Kin.pid (hoff.kin other heq)).trans (hinv.pid other)
  · exact hhint
  · intro other hother
    by_cases heq : other = pid
    · exact heq ▸ hrange
    · exact hinv.range other ((hused other heq).mp hother)
  · intro other hother
    rw [hoff.current] at hother
    by_cases heq : other = pid
    · exact heq ▸ hcurrent (heq ▸ hother)
    · exact (hused other heq).mpr (hinv.current other hother)
  · intro other hother
    by_cases heq : other = pid
    · subst heq
      exact hppid hother
    · rw [show (k'.procs other).ppid = (k.procs other).ppid from
        congrArg Kin.ppid (hoff.kin other heq)]
      exact hinv.parent other ((hused other heq).mp hother)

/-- One entry in use is written anew. -/
theorem TableInv.renew (hinv : TableInv k) {pid : Nat}
    (hoff : StirsOff pid k k') (hbefore : k.state pid ≠ .unused)
    (hafter : k'.state pid ≠ .unused) (hpid : (k'.procs pid).pid = pid)
    (hppid : (k'.procs pid).ppid ≠ pid)
    (hbitmap : k'.pidBitmap = k.pidBitmap)
    (hhint : k'.pidSearchHint = k.pidSearchHint) : TableInv k' := by
  have hrange := hinv.range pid hbefore
  refine hinv.entry hoff hrange (fun _ _ => by rw [hbitmap]) ?_ hpid
    (fun _ => hppid) ?_ fun _ => hafter
  · rw [hbitmap, hinv.bit pid hrange]
    exact iff_of_true hbefore hafter
  · intro other hlow hhigh
    by_cases heq : other = pid
    · exact heq ▸ hafter
    · rw [hhint] at hhigh
      rw [Ne, hoff.state_iff heq (by decide) (by decide)]
      exact hinv.hint other hlow hhigh

theorem TableInv.leaves (hinv : TableInv k) {last : ProcState}
    (hleaves : Leaves k self last k') (hself : k.state self ≠ .unused)
    (hlast : last ≠ .unused) : TableInv k' := by
  apply hinv.renew hleaves.toStirsOff hself
  · rw [hleaves.ends]
    exact hlast
  · exact hleaves.pid.trans (hinv.pid self)
  · rw [hleaves.ppid]
    exact hinv.parent self hself
  · exact hleaves.bitmap
  · exact hleaves.hint

theorem Switches.unused_iff {esp : Frame} (hswitch : Switches k esp k')
    (pid : Nat) : k'.state pid = .unused ↔ k.state pid = .unused := by
  rcases hswitch.state pid with hsame | ⟨hold, hnew⟩ | ⟨hold, hnew⟩
  · rw [hsame]
  · simp [hold, hnew]
  · simp [hold, hnew]

theorem TableInv.switches (hinv : TableInv k) {esp : Frame}
    (hswitch : Switches k esp k') : TableInv k' := by
  apply hinv.of_same hswitch.unused_iff
  · exact fun pid => congrArg Kin.pid (hswitch.kin pid)
  · exact fun pid => congrArg Kin.ppid (hswitch.kin pid)
  · exact hswitch.bitmap
  · exact hswitch.hint
  · intro pid hpid
    rcases hswitch.current with hsame | ⟨next, hnext, hready⟩
    · exact hinv.current pid (hsame ▸ hpid)
    · have heq : next = pid := Option.some.inj (hnext.symm.trans hpid)
      rw [← heq, hready]
      decide

end Invariant

/-- `pid_alloc` hands out the lowest free pid. -/
structure Takes (k : Kernel) (pid : Nat) (k' : Kernel) : Prop where
  procs : k'.procs = k.procs
  store : k'.store = k.store
  current : k'.currentProc = k.currentProc
  tick : k'.tickCount = k.tickCount
  bitmap : k'.pidBitmap = WordBitmap.set k.pidBitmap pid
  hint : k'.pidSearchHint = hintAfter pid
  range : Allocatable pid
  free : k.state pid = .unused
  lowest : ∀ other, pidInit ≤ other → other < pid → k.state other ≠ .unused

/-- `pid_free` of a pid in use: its bit goes, and the hint follows down. -/
structure Frees (k : Kernel) (pid : Nat) (k' : Kernel) : Prop where
  procs : k'.procs = k.procs
  store : k'.store = k.store
  current : k'.currentProc = k.currentProc
  bitmap : k'.pidBitmap = WordBitmap.clear k.pidBitmap pid
  hint : k'.pidSearchHint.val ≤ pid ∧
    k'.pidSearchHint.val ≤ k.pidSearchHint.val

section Allocation

variable {k k' : Kernel} {pid : Nat}

theorem TableInv.free_iff (hinv : TableInv k) (hpid : Allocatable pid) :
    (!WordBitmap.test k.pidBitmap pid) = true ↔ k.state pid = .unused := by
  rw [Bool.not_eq_true', ← Bool.not_eq_true, hinv.bit pid hpid, not_not]

theorem pidAlloc_takes (hinv : TableInv k) :
    (pidAlloc k = (none, k) ∧
      ∀ pid, Allocatable pid → k.state pid ≠ .unused) ∨
    ∃ pid k', pidAlloc k = (some pid, k') ∧ Takes k pid k' := by
  have hlow := k.pidSearchHint.property.1
  have hhigh := k.pidSearchHint.property.2
  unfold pidAlloc
  cases hfind : (pidCandidates k.pidSearchHint.val).find? fun pid =>
      !WordBitmap.test k.pidBitmap pid with
  | none =>
      refine .inl ⟨rfl, ?_⟩
      intro pid hpid hunused
      have hmem : pid ∈ pidCandidates k.pidSearchHint.val := by
        have hbounds : pidInit ≤ pid ∧ pid < maxProcs := hpid
        rw [pidCandidates, List.mem_append, List.mem_range'_1,
          List.mem_range'_1]
        omega
      exact List.find?_eq_none.mp hfind pid hmem
        ((hinv.free_iff hpid).mpr hunused)
  | some pid =>
      have hbounds : Allocatable pid :=
        pidCandidates_bounds (List.mem_of_find?_eq_some hfind)
      have htest := List.find?_some hfind
      have hunused : k.state pid = .unused := (hinv.free_iff hbounds).mp htest
      refine .inr ⟨pid, _, rfl, rfl, rfl, rfl, rfl, rfl, rfl, hbounds, hunused,
        ?_⟩
      intro other hother hlt
      by_cases hbelow : other < k.pidSearchHint.val
      · exact hinv.hint other hother hbelow
      -- the first pass runs upwards from the hint
      have hfirst : (List.range' k.pidSearchHint.val
          (maxProcs - k.pidSearchHint.val)).find?
          (fun pid => !WordBitmap.test k.pidBitmap pid) = some pid := by
        rw [pidCandidates, List.find?_append] at hfind
        cases hpass : (List.range' k.pidSearchHint.val
            (maxProcs - k.pidSearchHint.val)).find?
            (fun pid => !WordBitmap.test k.pidBitmap pid) with
        | some found =>
            rw [hpass] at hfind
            exact hfind
        | none =>
            rw [hpass, Option.none_or] at hfind
            have hmem := List.mem_of_find?_eq_some hfind
            rw [List.mem_range'_1] at hmem
            exact absurd hunused
              (hinv.hint pid hmem.1 (by omega))
      rw [List.find?_range'_eq_some] at hfirst
      have hset := hfirst.2.2 other (by omega) hlt
      rw [Bool.not_not] at hset
      have hrange : Allocatable other := ⟨hother, hlt.trans hbounds.2⟩
      exact (hinv.bit other hrange).mp hset

theorem pidFree_frees (hpid : Allocatable pid)
    (htest : WordBitmap.test k.pidBitmap pid = true) :
    Frees k pid (pidFree k pid) := by
  unfold pidFree
  rw [dif_neg hpid.ne_reserved, if_neg (not_not.mpr htest)]
  refine ⟨rfl, rfl, rfl, rfl, ?_⟩
  dsimp only
  split_ifs with hlt
  · exact ⟨Nat.le_refl _, Nat.le_of_lt hlt⟩
  · exact ⟨Nat.le_of_not_lt hlt, Nat.le_refl _⟩

theorem hintAfter_le (pid : Nat) : (hintAfter pid).val ≤ pid + 1 := by
  unfold hintAfter
  split_ifs
  · exact Nat.le_refl _
  · exact Nat.le_add_left 1 pid

/-- A pid that is given back at once leaves no trace. -/
theorem Takes.freed {k₁ : Kernel} (hinv : TableInv k)
    (htakes : Takes k pid k₁) {k₂ : Kernel} (hprocs : k₂.procs = k₁.procs)
    (hcurrent : k₂.currentProc = k₁.currentProc)
    (hbitmap : k₂.pidBitmap = k₁.pidBitmap) :
    TableInv (pidFree k₂ pid) := by
  have htest : WordBitmap.test k₂.pidBitmap pid = true := by
    rw [hbitmap, htakes.bitmap, WordBitmap.test_set]
    simp
  have hfrees := pidFree_frees htakes.range htest
  have hprocs' : (pidFree k₂ pid).procs = k.procs :=
    hfrees.procs.trans (hprocs.trans htakes.procs)
  have hclear : WordBitmap.test k.pidBitmap pid = false := by
    rw [← Bool.not_eq_true, hinv.bit pid htakes.range]
    exact not_not.mpr htakes.free
  have hbits : ∀ other, WordBitmap.test (pidFree k₂ pid).pidBitmap other =
      WordBitmap.test k.pidBitmap other := by
    intro other
    rw [hfrees.bitmap, hbitmap, htakes.bitmap, WordBitmap.test_clear,
      WordBitmap.test_set]
    by_cases hother : other = pid
    · simp [hother, hclear]
    · simp [hother]
  have hstate : ∀ other, (pidFree k₂ pid).state other = k.state other :=
    fun other => congrArg Pcb.state (congrFun hprocs' other)
  refine hinv.entry (.of_procs (fun other _ => congrFun hprocs' other)
    (hfrees.current.trans (hcurrent.trans htakes.current))) htakes.range
    (fun other _ => hbits other) ?_ ?_ ?_ ?_ ?_
  · rw [hbits, hstate]
    exact hinv.bit pid htakes.range
  · rw [hprocs']
    exact hinv.pid pid
  · rw [hstate, hprocs']
    exact hinv.parent pid
  · intro other hlow hhigh
    rw [hstate]
    exact htakes.lowest other hlow (Nat.lt_of_lt_of_le hhigh hfrees.hint.1)
  · rw [hstate]
    exact hinv.current pid

/-- A pid that is taken for a new entry. -/
theorem Takes.filled {k₁ : Kernel} (hinv : TableInv k)
    (htakes : Takes k pid k₁) {k₂ : Kernel} {pcb : Pcb}
    (hprocs : k₂.procs = Function.update k.procs pid pcb)
    (hcurrent : k₂.currentProc = k₁.currentProc)
    (hbitmap : k₂.pidBitmap = k₁.pidBitmap)
    (hhint : k₂.pidSearchHint = k₁.pidSearchHint)
    (hpid : pcb.pid = pid) (hppid : pcb.ppid ≠ pid)
    (hused : pcb.state ≠ .unused) : TableInv k₂ := by
  have hself : k₂.procs pid = pcb := by
    rw [hprocs]
    exact Function.update_self _ _ _
  have hstate : k₂.state pid ≠ .unused := by
    rw [Kernel.state, hself]
    exact hused
  have hothers : ∀ other, other ≠ pid → k₂.procs other = k.procs other := by
    intro other hother
    rw [hprocs]
    exact Function.update_of_ne hother _ _
  refine hinv.entry (.of_procs hothers (hcurrent.trans htakes.current))
    htakes.range (fun other hother => ?_) ?_ (hself ▸ hpid)
    (fun _ => hself ▸ hppid) ?_ fun _ => hstate
  · rw [hbitmap, htakes.bitmap, WordBitmap.test_set, decide_eq_false hother,
      Bool.false_or]
  · rw [hbitmap, htakes.bitmap, WordBitmap.test_set]
    exact iff_of_true (by simp) hstate
  · intro other hlow hhigh
    rw [hhint, htakes.hint] at hhigh
    have hle := hintAfter_le pid
    by_cases hother : other = pid
    · exact hother ▸ hstate
    · rw [Kernel.state, hothers other hother]
      exact htakes.lowest other hlow (by omega)

/-- A new process: an EMBRYO in a free slot, with the kernel as its parent. -/
structure Creates (k : Kernel) (priority child : Nat) (k' : Kernel) : Prop where
  range : Allocatable child
  free : k.state child = .unused
  lowest : ∀ pid, pidInit ≤ pid → pid < child → k.state pid ≠ .unused
  inv : TableInv k'
  entry : ∃ kstack store, k.store.kmalloc .kstack = (some kstack, store) ∧
    k'.store = (fdTableInit store).1 ∧
    k'.procs = Function.update k.procs child
      (embryoPcb child priority k.tickCount kstack (fdTableInit store).2)
  current : k'.currentProc = k.currentProc

/-- `proc_create` finds a free slot whenever `pid_alloc` gives it a pid, and a
failure leaves the table as it was. -/
theorem procCreate_cases (hinv : TableInv k) (priority : Nat) :
    (∃ k', procCreate k priority = (none, k') ∧ TableInv k' ∧
      k'.procs = k.procs ∧ k'.currentProc = k.currentProc ∧
      (Typed k.store → Quiet k.store k'.store)) ∨
    ∃ child k', procCreate k priority = (some child, k') ∧
      Creates k priority child k' := by
  unfold procCreate
  rcases pidAlloc_takes hinv with ⟨hnone, -⟩ | ⟨pid, k₁, hsome, htakes⟩
  · rw [hnone]
    exact .inl ⟨k, rfl, hinv, rfl, rfl, Quiet.refl⟩
  have hunused : k₁.state pid = .unused := by
    rw [Kernel.state, htakes.procs]
    exact htakes.free
  rw [hsome]
  dsimp only
  rw [if_neg (not_not.mpr hunused), htakes.store]
  rcases hmalloc : k.store.kmalloc .kstack with ⟨_ | kstack, store⟩
  · have htest : WordBitmap.test (k₁.setStore store).pidBitmap pid = true := by
      rw [show (k₁.setStore store).pidBitmap = _ from htakes.bitmap,
        WordBitmap.test_set]
      simp
    have hfrees := pidFree_frees htakes.range htest
    refine .inl ⟨_, rfl, htakes.freed hinv rfl rfl rfl,
      hfrees.procs.trans htakes.procs, hfrees.current.trans htakes.current, ?_⟩
    intro htyped
    have hquiet := @kmalloc_quiet k.store htyped .kstack (by decide)
      (by decide) (by decide)
    rw [hmalloc] at hquiet
    rw [hfrees.store]
    exact hquiet.quiet
  · have hprocs : ((k₁.setStore (fdTableInit store).1).setPcb pid (embryoPcb pid
        priority k₁.tickCount kstack (fdTableInit store).2)).procs =
        Function.update k.procs pid (embryoPcb pid priority k.tickCount kstack
          (fdTableInit store).2) := by
      rw [← htakes.tick, ← htakes.procs]
      rfl
    have hkernel : pidKernel ≠ pid := fun h =>
      htakes.range.ne_reserved (.inl h.symm)
    refine .inr ⟨pid, _, rfl, htakes.range, htakes.free, htakes.lowest, ?_,
      ⟨kstack, store, hmalloc, rfl, hprocs⟩, htakes.current⟩
    have hembryo : (embryoPcb pid priority k.tickCount kstack
        (fdTableInit store).2).state ≠ .unused := ProcState.noConfusion
    exact htakes.filled hinv hprocs rfl rfl rfl rfl hkernel hembryo

end Allocation

/-- A ZOMBIE is released: its entry is blank but for the pid. -/
structure Destroys (k : Kernel) (pid : Nat) (k' : Kernel) : Prop
    extends StirsOff pid k k' where
  zombie : k.state pid = .zombie
  blank : k'.procs pid = { Pcb.zero with pid := pid }
  bitmap : k'.pidBitmap = WordBitmap.clear k.pidBitmap pid
  hint : k'.pidSearchHint.val ≤ k.pidSearchHint.val ∧
    k'.pidSearchHint.val ≤ pid

/-- A process that is not RUNNING starts again. -/
structure Restarts (k : Kernel) (pid : Nat) (k' : Kernel) : Prop
    extends StirsOff pid k k' where
  ready : k'.state pid = .ready
  samePid : (k'.procs pid).pid = (k.procs pid).pid
  samePpid : (k'.procs pid).ppid = (k.procs pid).ppid
  kstack : (k'.procs pid).kstackBase = (k.procs pid).kstackBase
  waiting : (k'.procs pid).waiting = false
  stack : (k.procs pid).kstackBase ≠ none →
    ∃ entry, (k'.procs pid).espKernel = .fresh entry
  bitmap : k'.pidBitmap = k.pidBitmap
  hint : k'.pidSearchHint = k.pidSearchHint

section Replacement

variable {k k' : Kernel} {pid : Nat}

theorem TableInv.zombie_range (hinv : TableInv k)
    (hzombie : k.state pid = .zombie) : Allocatable pid := by
  apply hinv.range
  rw [hzombie]
  decide

theorem procDestroy_destroys (hinv : TableInv k)
    (hdestroy : procDestroy k pid = some k') : Destroys k pid k' := by
  unfold procDestroy at hdestroy
  split_ifs at hdestroy with hstate
  have hzombie : k.state pid = .zombie := not_not.mp hstate
  have hstore : Stirs k
      (k.setStore (k.store.kfreeOption (k.procs pid).kstackBase)) :=
    ⟨fun _ => rfl, fun _ => rfl, fun _ => .inl rfl, rfl, rfl, rfl⟩
  have hclose := hstore.trans (withTable_stirs _ pid (fdTableCloseAll
    (k.store.kfreeOption (k.procs pid).kstackBase) (k.procs pid).fdTable))
  rw [← Option.some.inj hdestroy]
  dsimp only
  generalize hk₁ : closeFiles (k.setStore
    (k.store.kfreeOption (k.procs pid).kstackBase)) pid = k₁
  have hstirs : Stirs k k₁ := hk₁ ▸ hclose
  have hinv₁ : TableInv k₁ := hinv.stirs hstirs
  have hpid : Allocatable pid := hinv.zombie_range hzombie
  have hsaved : (k₁.procs pid).pid = pid := hinv₁.pid pid
  have htest : WordBitmap.test k₁.pidBitmap pid = true := by
    rw [hstirs.bitmap, hinv.bit pid hpid, hzombie]
    decide
  have hfrees := pidFree_frees hpid htest
  rw [hsaved]
  have hoff : StirsOff pid k₁ (pidFree k₁ pid) :=
    .of_procs (fun other _ => congrFun hfrees.procs other) hfrees.current
  refine ⟨((hstirs.off pid).trans hoff).trans (StirsOff.setPcb _ pid _),
    hzombie, procs_setPcb_self _ pid _, ?_, ?_⟩
  · exact hfrees.bitmap.trans (by rw [hstirs.bitmap])
  · have hhint := hfrees.hint
    rw [hstirs.hint] at hhint
    exact ⟨hhint.2, hhint.1⟩

theorem TableInv.destroys (hinv : TableInv k) (hgone : Destroys k pid k')
    (hother : k.currentProc ≠ some pid) : TableInv k' := by
  have hpid : Allocatable pid := hinv.zombie_range hgone.zombie
  have hself : k'.state pid = .unused := by
    rw [Kernel.state, hgone.blank]
    rfl
  refine hinv.entry hgone.toStirsOff hpid (fun other heq => ?_) ?_ ?_
    (fun hused => absurd hself hused) ?_ fun hcurrent => absurd hcurrent hother
  · rw [hgone.bitmap, WordBitmap.test_clear]
    simp [heq]
  · rw [hgone.bitmap, WordBitmap.test_clear]
    simp [hself]
  · rw [hgone.blank]
  · intro other hlow hhigh
    have hlt := Nat.lt_of_lt_of_le hhigh hgone.hint.2
    rw [Ne, hgone.state_iff hlt.ne (by decide) (by decide)]
    exact hinv.hint other hlow (Nat.lt_of_lt_of_le hhigh hgone.hint.1)

theorem procInitFrame_off (k : Kernel) (pid entry : Nat) :
    StirsOff pid k (procInitFrame k pid entry) := by
  unfold procInitFrame
  split_ifs
  · exact (Still.refl k).calm.toStirs.off pid
  · exact StirsOff.setPcb k pid _

theorem procInitFrame_entry (k : Kernel) (pid entry : Nat) :
    (procInitFrame k pid entry).procs pid =
      if (k.procs pid).kstackBase = none then k.procs pid
      else { k.procs pid with espKernel := .fresh entry } := by
  unfold procInitFrame
  split_ifs
  · rfl
  · exact procs_setPcb_self _ _ _

theorem procExec_restarts (k : Kernel) (pid entry : Nat) :
    (k.state pid = .running ∧ (procExec k pid entry).2 = k) ∨
      (k.state pid ≠ .running ∧ Restarts k pid (procExec k pid entry).2) := by
  unfold procExec
  by_cases hrunning : k.state pid = .running
  · rw [if_pos hrunning]
    exact .inl ⟨hrunning, rfl⟩
  rw [if_neg hrunning]
  refine .inr ⟨hrunning, ?_⟩
  dsimp only
  have hframe := procInitFrame_entry (schedRemove k pid) pid entry
  have hoff := procInitFrame_off (schedRemove k pid) pid entry
  have hbitmap : (procInitFrame (schedRemove k pid) pid entry).pidBitmap =
      k.pidBitmap := by
    unfold procInitFrame
    split_ifs <;> rfl
  have hhint : (procInitFrame (schedRemove k pid) pid entry).pidSearchHint =
      k.pidSearchHint := by
    unfold procInitFrame
    split_ifs <;> rfl
  generalize procInitFrame (schedRemove k pid) pid entry = k₁ at *
  have hremove : (schedRemove k pid).procs = k.procs := rfl
  rw [hremove] at hframe
  have hentry : ∀ pcb : Pcb, (schedAdd (k₁.setPcb pid pcb) pid).procs pid =
      pcb := by
    intro pcb
    unfold schedAdd
    split_ifs <;> exact procs_setPcb_self k₁ pid pcb
  have hadd := schedAdd_still (k₁.setPcb pid { k₁.procs pid with
    ticksTotal := 0
    ticksScheduled := 0
    timeslice := (k₁.procs pid).timesliceLen
    wakeupTick := 0
    waiting := false
    state := .ready }) pid
  refine ⟨?_, ?_, ?_, ?_, ?_, ?_, ?_, ?_, ?_⟩
  · exact ((schedRemove_still k pid).calm.toStirs.off pid).trans
      (hoff.trans ((StirsOff.setPcb k₁ pid _).trans
        (hadd.calm.toStirs.off pid)))
  · rw [Kernel.state, hentry]
  · rw [hentry, hframe]
    split_ifs <;> rfl
  · rw [hentry, hframe]
    split_ifs <;> rfl
  · rw [hentry, hframe]
    split_ifs <;> rfl
  · rw [hentry]
  · intro hkstack
    rw [hentry, hframe, if_neg hkstack]
    exact ⟨entry, rfl⟩
  · exact hadd.bitmap.trans hbitmap
  · exact hadd.hint.trans hhint

theorem TableInv.restarts (hinv : TableInv k) (hrestarts : Restarts k pid k')
    (hused : k.state pid ≠ .unused) : TableInv k' := by
  apply hinv.renew hrestarts.toStirsOff hused
  · rw [hrestarts.ready]
    exact ProcState.noConfusion
  · exact hrestarts.samePid.trans (hinv.pid pid)
  · rw [hrestarts.samePpid]
    exact hinv.parent pid hused
  · exact hrestarts.bitmap
  · exact hrestarts.hint

/-- A forked child: READY in a free slot, with the caller's pid as its
parent. -/
structure Forks (k : Kernel) (caller child : Nat) (k' : Kernel) : Prop
    extends StirsOff child k k' where
  range : Allocatable child
  free : k.state child = .unused
  lowest : ∀ pid, pidInit ≤ pid → pid < child → k.state pid ≠ .unused
  inv : TableInv k'
  ready : k'.state child = .ready
  ppid : (k'.procs child).ppid = caller
  waiting : (k'.procs child).waiting = false
  stack : ∃ entry, (k'.procs child).espKernel = .fresh entry
  kstack : (k'.procs child).kstackBase ≠ none

theorem adoptChild_stirs (k : Kernel) (self child : Nat) :
    Stirs (k.setPcb child { k.procs child with ppid := (k.procs self).pid })
      (adoptChild k self child) :=
  (withTable_stirs _ child _).trans (withTable_stirs _ child _)

/-- The last steps of `proc_fork`: a frame, READY, and on the queue. -/
def launch (k : Kernel) (child entry : Nat) : Kernel :=
  schedAdd ((procInitFrame k child entry).setPcb child
    { (procInitFrame k child entry).procs child with state := .ready }) child

theorem launch_off (k : Kernel) (child entry : Nat) :
    StirsOff child k (launch k child entry) :=
  (procInitFrame_off k child entry).trans ((StirsOff.setPcb _ child _).trans
    ((schedAdd_still _ child).calm.toStirs.off child))

theorem launch_procs {child entry other : Nat} (hother : other ≠ child) :
    (launch k child entry).procs other = k.procs other := by
  unfold launch schedAdd procInitFrame
  split_ifs <;> simp [Kernel.setPcb, hother]

theorem launch_entry {child : Nat} (entry : Nat)
    (hkstack : (k.procs child).kstackBase ≠ none) :
    (launch k child entry).state child = .ready ∧
      ((launch k child entry).procs child).kin = (k.procs child).kin ∧
      ((launch k child entry).procs child).espKernel = .fresh entry := by
  have hframe := procInitFrame_entry k child entry
  rw [if_neg hkstack] at hframe
  have hstill := schedAdd_still ((procInitFrame k child entry).setPcb child
    { (procInitFrame k child entry).procs child with state := .ready }) child
  have hself := procs_setPcb_self (procInitFrame k child entry) child
    { (procInitFrame k child entry).procs child with state := .ready }
  refine ⟨?_, ?_, ?_⟩
  · exact (hstill.state child).trans (congrArg Pcb.state hself)
  · rw [launch, hstill.kin, hself, hframe]
    rfl
  · rw [launch, hstill.frame, hself, hframe]

theorem launch_bitmap (k : Kernel) (child entry : Nat) :
    (launch k child entry).pidBitmap = k.pidBitmap ∧
      (launch k child entry).pidSearchHint = k.pidSearchHint := by
  have hstill := schedAdd_still ((procInitFrame k child entry).setPcb child
    { (procInitFrame k child entry).procs child with state := .ready }) child
  have hframe : (procInitFrame k child entry).pidBitmap = k.pidBitmap ∧
      (procInitFrame k child entry).pidSearchHint = k.pidSearchHint := by
    unfold procInitFrame
    split_ifs <;> exact ⟨rfl, rfl⟩
  exact ⟨hstill.bitmap.trans hframe.1, hstill.hint.trans hframe.2⟩

theorem TableInv.launch {child : Nat} (hinv : TableInv k)
    (hused : k.state child ≠ .unused)
    (hkstack : (k.procs child).kstackBase ≠ none) (entry : Nat) :
    TableInv (launch k child entry) := by
  obtain ⟨hready, hkin, -⟩ := launch_entry entry hkstack
  obtain ⟨hbitmap, hhint⟩ := launch_bitmap k child entry
  apply hinv.renew (launch_off k child entry) hused
  · rw [hready]
    exact ProcState.noConfusion
  · exact (congrArg Kin.pid hkin).trans (hinv.pid child)
  · rw [show ((Orion.launch k child entry).procs child).ppid =
      (k.procs child).ppid from congrArg Kin.ppid hkin]
    exact hinv.parent child hused
  · exact hbitmap
  · exact hhint

/-- A fork is a `proc_create` that fails, or one that succeeds and is followed
by the adoption and the launch of the child. -/
theorem procFork_cases {self entry : Nat} {result : Option Nat × Kernel}
    (hinv : TableInv k) (hfork : procFork k self entry = some result) :
    (TableInv result.2 ∧ result.2.procs = k.procs ∧
      result.2.currentProc = k.currentProc ∧
      (Typed k.store → Quiet k.store result.2.store) ∧ result.1 = none) ∨
    ∃ child k₁, Creates k (k.procs self).priority child k₁ ∧
      result.2 = launch (adoptChild k₁ self child) child entry ∧
      result.1 = some (result.2.procs child).pid := by
  unfold procFork at hfork
  rcases procCreate_cases hinv (k.procs self).priority with
    ⟨k₁, hcreate, hafter, hprocs, hcurrent, hstore⟩ |
      ⟨child, k₁, hcreate, hcreates⟩
  · rw [hcreate] at hfork
    rw [← Option.some.inj hfork]
    exact .inl ⟨hafter, hprocs, hcurrent, hstore, rfl⟩
  · rw [hcreate] at hfork
    obtain ⟨k₂, hready, rfl⟩ := Option.map_eq_some_iff.mp hfork
    obtain ⟨-, rfl⟩ := procSetReady_eq_some hready
    refine .inr ⟨child, k₁, hcreates, rfl, ?_⟩
    exact congrArg (fun kin => some (Kin.pid kin))
      ((schedAdd_still _ child).kin child).symm

/-- The child of a fork, from the new entry that `proc_create` has made. -/
theorem Creates.forks {self child priority entry : Nat} {k₁ : Kernel}
    (hcreates : Creates k priority child k₁)
    (hself : k.state self ≠ .unused) :
    Forks k self child (launch (adoptChild k₁ self child) child entry) := by
  obtain ⟨kstack, store, -, -, hprocs⟩ := hcreates.entry
  have hne : self ≠ child := by
    rintro rfl
    exact hself hcreates.free
  have hchild := congrFun hprocs child
  rw [Function.update_self] at hchild
  have hcreate : StirsOff child k k₁ :=
    .of_procs (fun other hother => (congrFun hprocs other).trans
      (Function.update_of_ne hother _ _)) hcreates.current
  have hadopt := adoptChild_stirs k₁ self child
  have hset := procs_setPcb_self k₁ child
    { k₁.procs child with ppid := (k₁.procs self).pid }
  have hparent : (k₁.procs self).pid = self := hcreates.inv.pid self
  have hkin : ((adoptChild k₁ self child).procs child).kin =
      ⟨child, self, some kstack, false, pidInvalid⟩ := by
    rw [hadopt.kin, hset, hparent, hchild]
    rfl
  have hkstack : ((adoptChild k₁ self child).procs child).kstackBase ≠ none := by
    rw [show ((adoptChild k₁ self child).procs child).kstackBase = some kstack
      from congrArg Kin.kstackBase hkin]
    exact Option.some_ne_none kstack
  obtain ⟨hready, hlaunch, hstack⟩ := launch_entry entry hkstack
  have hoff : StirsOff child k
      (launch (adoptChild k₁ self child) child entry) :=
    hcreate.trans ((StirsOff.setPcb k₁ child _).trans
      ((hadopt.off child).trans (launch_off _ child entry)))
  have hkin' := hlaunch.trans hkin
  have hembryo : k₁.state child ≠ .unused := by
    rw [Kernel.state, hchild]
    exact ProcState.noConfusion
  have hadopted : (adoptChild k₁ self child).state child ≠ .unused := by
    rw [Ne, hadopt.state_iff (by decide) (by decide), state_setPcb_self]
    exact hembryo
  have hinv : TableInv (adoptChild k₁ self child) := by
    apply hcreates.inv.renew ((StirsOff.setPcb k₁ child _).trans
      (hadopt.off child)) hembryo hadopted
    · exact congrArg Kin.pid hkin
    · rw [show ((adoptChild k₁ self child).procs child).ppid = self from
        congrArg Kin.ppid hkin]
      exact hne
    · exact hadopt.bitmap
    · exact hadopt.hint
  refine ⟨hoff, hcreates.range, hcreates.free, hcreates.lowest,
    hinv.launch hadopted hkstack entry, hready, congrArg Kin.ppid hkin',
    congrArg Kin.waiting hkin', ⟨entry, hstack⟩, ?_⟩
  rw [show ((launch (adoptChild k₁ self child) child entry).procs
    child).kstackBase = some kstack from congrArg Kin.kstackBase hkin']
  exact Option.some_ne_none kstack

end Replacement

end Orion
