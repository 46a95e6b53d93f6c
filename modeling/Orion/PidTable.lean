/-
The process table invariant along every run from `proc_init`, and what it says
about `pid_alloc` and `proc_create`.
-/
import Orion.ProcEffects

namespace Orion

section Steps

variable {k k' : Kernel}

theorem kernelCall_tableInv {call : KernelCall} (hinv : TableInv k)
    (hcall : k.call call = some k') : TableInv k' := by
  cases call with
  | procCreate priority =>
      rw [← Option.some.inj hcall]
      rcases procCreate_cases hinv priority with
        ⟨k₁, hcreate, hinv₁, -⟩ | ⟨child, k₁, hcreate, hcreates⟩
      · rw [hcreate]
        exact hinv₁
      · rw [hcreate]
        exact hcreates.inv
  | procInitFrame pid entry =>
      obtain ⟨p, hget, rfl⟩ := Option.map_eq_some_iff.mp hcall
      obtain ⟨rfl, -, hused⟩ := procGet_eq_some hget
      have hentry := procInitFrame_entry k p entry
      have hsame : ((procInitFrame k p entry).procs p).kin =
          (k.procs p).kin ∧
          (procInitFrame k p entry).state p = k.state p := by
        rw [Kernel.state, hentry]
        split_ifs <;> exact ⟨rfl, rfl⟩
      have hbits : (procInitFrame k p entry).pidBitmap = k.pidBitmap ∧
          (procInitFrame k p entry).pidSearchHint = k.pidSearchHint := by
        unfold procInitFrame
        split_ifs <;> exact ⟨rfl, rfl⟩
      apply hinv.renew (procInitFrame_off k p entry) hused
      · rw [hsame.2]
        exact hused
      · exact (congrArg Kin.pid hsame.1).trans (hinv.pid p)
      · rw [show ((procInitFrame k p entry).procs p).ppid = (k.procs p).ppid
          from congrArg Kin.ppid hsame.1]
        exact hinv.parent p hused
      · exact hbits.1
      · exact hbits.2
  | procSetReady pid =>
      obtain ⟨p, hget, hready⟩ := Option.bind_eq_some_iff.mp hcall
      obtain ⟨rfl, -, hused⟩ := procGet_eq_some hget
      exact hinv.leaves (procSetReady_leaves hready) hused (by decide)
  | schedAdd pid =>
      obtain ⟨p, -, rfl⟩ := Option.map_eq_some_iff.mp hcall
      exact hinv.stirs (schedAdd_still k p).calm.toStirs
  | procWake pid =>
      obtain ⟨p, -, rfl⟩ := Option.map_eq_some_iff.mp hcall
      exact hinv.stirs (procWake_calm k p).toStirs

theorem stepInput_tableInv {input : Input} (hinv : TableInv k)
    (hstep : k.stepInput input = some k') : TableInv k' := by
  cases input with
  | event e => exact (step_segment hstep).tableInv hinv
  | call c => exact kernelCall_tableInv hinv hstep

/-- `sched_start`: the chosen process runs, from its frame. -/
structure Starts (k : Kernel) (first : Nat) (k' : Kernel) : Prop where
  ready : k.state first = .ready
  leaves : ∃ k₁, Leaves k first .running k₁ ∧ k'.procs = k₁.procs ∧
    k'.pidBitmap = k₁.pidBitmap ∧ k'.pidSearchHint = k₁.pidSearchHint
  current : k'.currentProc = some first
  resume : k'.resume = (k.procs first).espKernel.cont
  store : k'.store = k.store

theorem schedStart_starts (hstart : schedStart k = some k') :
    ∃ first, Starts k first k' := by
  unfold schedStart at hstart
  split at hstart
  · cases hstart
  rename_i first idx hpick
  obtain ⟨-, hready, -⟩ := pickReady_queue k hpick
  rw [← Option.some.inj hstart]
  refine ⟨first, hready, ⟨k.setPcb first { k.procs first with
    state := .running
    ticksScheduled := MachineInt.u32 ((k.procs first).ticksScheduled + 1) },
    ?_, rfl, rfl, rfl⟩, rfl, rfl, rfl⟩
  apply Leaves.setPcb <;> rfl

theorem schedStart_tableInv (hinv : TableInv k)
    (hstart : schedStart k = some k') : TableInv k' := by
  obtain ⟨first, hstarts⟩ := schedStart_starts hstart
  obtain ⟨k₁, hleaves, hprocs, hbitmap, hhint⟩ := hstarts.leaves
  have hused : k.state first ≠ .unused := by
    rw [hstarts.ready]
    decide
  apply (hinv.leaves hleaves hused (by decide)).of_same
  · intro pid
    rw [Kernel.state, hprocs]
    rfl
  · exact fun pid => by rw [hprocs]
  · exact fun pid => by rw [hprocs]
  · exact hbitmap
  · exact hhint
  · rw [hstarts.current]
    rintro pid ⟨⟩
    rw [hleaves.ends]
    decide

theorem reset_tableInv (store : Store) : TableInv (Kernel.reset store) := by
  have hbit : ∀ pid, WordBitmap.test (Kernel.reset store).pidBitmap pid =
      decide (pid = pidKernel) := by
    intro pid
    have hzero : WordBitmap.test (fun _ => 0#32) pid = false := by
      simp [WordBitmap.test]
    exact (WordBitmap.test_set _ pidKernel pid).trans
      (by rw [hzero, Bool.or_false])
  constructor
  · rw [hbit]
    rfl
  · intro pid hpid
    rw [hbit, decide_eq_true_eq]
    exact ⟨fun h => absurd (.inl h) hpid.ne_reserved, fun h => absurd rfl h⟩
  · exact fun _ => rfl
  · intro pid hlow hhigh
    have hhint : pid < pidInit := hhigh
    omega
  · exact fun pid hused => absurd rfl hused
  · intro pid hcurrent
    cases hcurrent
  · exact fun pid hused => absurd rfl hused

/-- The boot sequence makes one process and starts it. -/
theorem boot_creates {refuses : Nat → Bool} {idleEntry : Nat}
    (hboot : boot refuses idleEntry = some k) : ∃ idle k₁,
      Creates (Kernel.reset (devfsInit (ramfsInit (Store.empty refuses))))
        procPrioIdle idle k₁ ∧ schedStart (launch k₁ idle idleEntry) = some k := by
  unfold boot at hboot
  dsimp only at hboot
  generalize devfsInit (ramfsInit (Store.empty refuses)) = store at hboot ⊢
  rcases procCreate_cases (reset_tableInv store) procPrioIdle with
    ⟨k₁, hcreate, -⟩ | ⟨idle, k₁, hcreate, hcreates⟩
  · rw [hcreate] at hboot
    cases hboot
  · rw [hcreate] at hboot
    obtain ⟨k₂, hready, hstart⟩ := Option.bind_eq_some_iff.mp hboot
    obtain ⟨-, rfl⟩ := procSetReady_eq_some hready
    exact ⟨idle, k₁, hcreates, hstart⟩

theorem Creates.embryo {priority child : Nat}
    (hcreates : Creates k priority child k') :
    k'.state child = .embryo ∧ (k'.procs child).kstackBase ≠ none := by
  obtain ⟨kstack, store, -, -, hprocs⟩ := hcreates.entry
  have hchild := congrFun hprocs child
  rw [Function.update_self] at hchild
  rw [Kernel.state, hchild]
  exact ⟨rfl, Option.some_ne_none kstack⟩

/-- After the boot one process runs, in user mode; every other entry is
blank. -/
structure Boots (k : Kernel) (idle : Nat) : Prop where
  current : k.currentProc = some idle
  enabled : k.schedEnabled = true
  resume : k.resume = none
  running : k.state idle = .running
  ppid : (k.procs idle).ppid = pidKernel
  kstack : (k.procs idle).kstackBase ≠ none
  frame : ∃ entry, (k.procs idle).espKernel = .fresh entry
  blank : ∀ pid, pid ≠ idle → k.procs pid = { Pcb.zero with pid := pid }

theorem boot_boots {refuses : Nat → Bool} {idleEntry : Nat}
    (hboot : boot refuses idleEntry = some k) : ∃ idle, Boots k idle := by
  obtain ⟨idle, k₁, hcreates, hstart⟩ := boot_creates hboot
  obtain ⟨kstack, store, -, -, hprocs⟩ := hcreates.entry
  obtain ⟨-, hkstack⟩ := hcreates.embryo
  obtain ⟨-, hkin, hframe⟩ := launch_entry idleEntry hkstack
  have hblank : ∀ pid, pid ≠ idle → (launch k₁ idle idleEntry).procs pid =
      { Pcb.zero with pid := pid } := by
    intro pid hne
    rw [launch_procs hne, hprocs]
    exact Function.update_of_ne hne _ _
  unfold schedStart at hstart
  split at hstart
  · cases hstart
  rename_i first idx hpick
  obtain rfl : first = idle := by
    by_contra hne
    have hready := (pickReady_queue _ hpick).2.1
    rw [Kernel.state, hblank first hne] at hready
    cases hready
  rw [← Option.some.inj hstart]
  refine ⟨first, rfl, rfl, congrArg Frame.cont hframe,
    state_setPcb_self _ _ _, ?_, ?_, ⟨idleEntry, ?_⟩, fun pid hne => ?_⟩
  · rw [procs_setPcb_self]
    refine (congrArg Kin.ppid hkin).trans ?_
    rw [Pcb.kin, hprocs, Function.update_self]
    rfl
  · rw [procs_setPcb_self]
    exact fun h => hkstack ((congrArg Kin.kstackBase hkin).symm.trans h)
  · rw [procs_setPcb_self]
    exact hframe
  · exact (Function.update_of_ne hne _ _).trans (hblank pid hne)

theorem Boots.state_cases {idle : Nat} (hboots : Boots k idle) (pid : Nat) :
    (pid = idle ∧ k.state pid = .running) ∨ k.state pid = .unused := by
  by_cases heq : pid = idle
  · exact .inl ⟨heq, heq ▸ hboots.running⟩
  · exact .inr (congrArg Pcb.state (hboots.blank pid heq))

theorem Boots.eq_of_used {idle pid : Nat} (hboots : Boots k idle)
    (hused : k.state pid ≠ .unused) : pid = idle :=
  ((hboots.state_cases pid).resolve_right hused).1

theorem boot_tableInv {refuses : Nat → Bool} {idleEntry : Nat}
    (hboot : boot refuses idleEntry = some k) : TableInv k := by
  obtain ⟨idle, k₁, hcreates, hstart⟩ := boot_creates hboot
  obtain ⟨hembryo, hkstack⟩ := hcreates.embryo
  apply schedStart_tableInv _ hstart
  apply hcreates.inv.launch _ hkstack
  rw [hembryo]
  decide

end Steps

/-- What can happen from `proc_init` on: the start of the scheduler, segments
and kernel calls. -/
inductive LifeInput where
  | start
  | input (input : Input)

def Kernel.live (k : Kernel) : LifeInput → Option Kernel
  | .start => schedStart k
  | .input i => k.stepInput i

theorem live_tableInv {store : Store} {inputs : List LifeInput} {k : Kernel}
    (hrun : Machine.exec Kernel.live (Kernel.reset store) inputs = some k) :
    TableInv k := by
  have hstep : ∀ (j : Kernel) (input : LifeInput) (j' : Kernel),
      TableInv j → j.live input = some j' → TableInv j' := by
    intro j input j' hinv hstep
    cases input with
    | start => exact schedStart_tableInv hinv hstep
    | input i => exact stepInput_tableInv hinv hstep
  exact Machine.exec_invariant hstep (reset_tableInv store) hrun

/-- From `proc_init` on, at every boundary: the bit of every pid is set exactly
when its slot is in use, each slot carries its own index as its pid, and no
pid below the hint is free.  So `pid_alloc` returns the lowest free pid, or
none exactly when none is free, and the slot that `proc_create` looks at is
UNUSED. -/
theorem pidTable_run_agrees (store : Store) (inputs : List LifeInput)
    (k : Kernel)
    (hrun : Machine.exec Kernel.live (Kernel.reset store) inputs = some k) :
    (∀ pid, pidInit ≤ pid → pid < maxProcs →
      (WordBitmap.test k.pidBitmap pid = true ↔ k.state pid ≠ .unused)) ∧
    WordBitmap.test k.pidBitmap pidKernel = true ∧
    (∀ i < maxProcs, (k.procs i).pid = i) ∧
    (pidInit ≤ k.pidSearchHint.val ∧ k.pidSearchHint.val < maxProcs) ∧
    (∀ pid, pidInit ≤ pid → pid < k.pidSearchHint.val →
      k.state pid ≠ .unused) ∧
    (∀ pid, (pidAlloc k).1 = some pid ↔
      (pidInit ≤ pid ∧ pid < maxProcs ∧ k.state pid = .unused) ∧
        ∀ other, pidInit ≤ other → other < pid → k.state other ≠ .unused) ∧
    ((pidAlloc k).1 = none ↔
      ∀ pid, pidInit ≤ pid → pid < maxProcs → k.state pid ≠ .unused) ∧
    (∀ pid, (pidAlloc k).1 = some pid → (pidAlloc k).2.state pid = .unused) := by
  have hinv := live_tableInv hrun
  refine ⟨fun pid hlow hhigh => hinv.bit pid ⟨hlow, hhigh⟩, hinv.kernel,
    fun i _ => hinv.pid i, k.pidSearchHint.property, hinv.hint, ?_⟩
  rcases pidAlloc_takes hinv with ⟨hnone, hfull⟩ | ⟨pid, k', hsome, htakes⟩
  · rw [hnone]
    refine ⟨?_, ?_, ?_⟩
    · intro pid
      constructor
      · intro h
        cases h
      · rintro ⟨⟨hlow, hhigh, hunused⟩, -⟩
        exact absurd hunused (hfull pid ⟨hlow, hhigh⟩)
    · exact ⟨fun _ pid hlow hhigh => hfull pid ⟨hlow, hhigh⟩, fun _ => rfl⟩
    · intro pid h
      cases h
  · rw [hsome]
    refine ⟨?_, ?_, ?_⟩
    · intro other
      constructor
      · rintro ⟨⟩
        exact ⟨⟨htakes.range.1, htakes.range.2, htakes.free⟩, htakes.lowest⟩
      · rintro ⟨⟨hlow, -, hunused⟩, hlowest⟩
        rcases Nat.lt_trichotomy pid other with hlt | heq | hgt
        · exact absurd htakes.free (hlowest pid htakes.range.1 hlt)
        · exact congrArg some heq
        · exact absurd hunused (htakes.lowest other hlow hgt)
    · constructor
      · intro h
        cases h
      · intro hfull
        exact absurd htakes.free (hfull pid htakes.range.1 htakes.range.2)
    · rintro other ⟨⟩
      rw [Kernel.state, htakes.procs]
      exact htakes.free

namespace PidTableWitness

/-- Process 1 forks 2 and 3; process 2 exits and is reaped. -/
def inputs : List LifeInput :=
  [.input (.call (.procCreate 16)), .input (.call (.procInitFrame 1 0x1000)),
    .input (.call (.procSetReady 1)), .input (.call (.schedAdd 1)), .start,
    .input (.event (.syscall (.fork 0x2000))),
    .input (.event (.syscall (.fork 0x3000))),
    .input (.event (.syscall (.wait 2 false))),
    .input (.event (.syscall (.exit 0))),
    .input (.event (.syscall (.exit 0))),
    .input (.event (.resume fun _ => 0))]

theorem reaped_run :
    (Machine.exec Kernel.live (Kernel.reset (Store.empty fun _ => false))
      inputs).map (fun k => ((pidAlloc k).1, k.state 1, k.state 3)) =
      some (some 2, .running, .zombie) := by
  decide +kernel

theorem reaped_pid_free : ∃ k, Machine.exec Kernel.live
    (Kernel.reset (Store.empty fun _ => false)) inputs = some k ∧
      (pidAlloc k).1 = some 2 ∧ (pidAlloc k).2.state 2 = .unused := by
  obtain ⟨k, hrun, hview⟩ := Option.map_eq_some_iff.mp reaped_run
  have hpid : (pidAlloc k).1 = some 2 := congrArg Prod.fst hview
  have hagrees := pidTable_run_agrees _ _ k hrun
  exact ⟨k, hrun, hpid, hagrees.2.2.2.2.2.2.2 2 hpid⟩

end PidTableWitness

end Orion
