/-
Every process goes on where it was left.  While another process runs, a frame
stays on the kernel stack as it was, and the process table keeps its address;
so each dispatch pops the frame with which the process was last left.
-/
import Orion.Contexts

namespace Orion

open ByteMem WordStack

section Traps

variable {k k' : Kernel} {self : Nat} {trap : Trap} {outcome : Outcome}

theorem sysExecve_stirs (k : Kernel) (self : Nat) (entry : UInt32)
    (store : Store) : Stirs k (sysExecve k self entry store).2 := by
  have hstore : Stirs k (k.setStore store) :=
    ⟨fun _ => rfl, fun _ => rfl, fun _ => .inl rfl, rfl, rfl, rfl⟩
  unfold sysExecve
  dsimp only
  split_ifs
  · exact hstore
  · exact hstore.trans (Stirs.setPcb rfl rfl (.inl rfl))

theorem trap_execve {entry : UInt32} {store : Store}
    (hcurrent : k.currentProc = some self)
    (htrap : k.trap (.execve entry store) = some (outcome, k')) :
    (outcome, k') = sysExecve k self entry store := by
  unfold Kernel.trap at htrap
  rw [hcurrent] at htrap
  cases hresume : k.resume with
  | some cont =>
      rw [hresume] at htrap
      cases htrap
  | none =>
      rw [hresume] at htrap
      exact (Option.some.inj htrap).symm

theorem trap_sound (hsound : Sound k) (hcurrent : k.currentProc = some self)
    (htrap : k.trap trap = some (outcome, k')) :
    Sound k' ∧ k'.currentProc = some self := by
  cases trap with
  | event event =>
      have hseg := handler_segmented hsound hcurrent htrap
      exact ⟨hseg.sound, hseg.current⟩
  | execve entry store =>
      have hstirs := sysExecve_stirs k self entry store
      rw [← trap_execve hcurrent htrap] at hstirs
      exact ⟨⟨hsound.table.stirs hstirs, hsound.framed.mild hstirs.mild⟩,
        hstirs.current.trans hcurrent⟩

/-- Only the timer sets the tick flag. -/
theorem trap_flags (hcurrent : k.currentProc = some self)
    (htrap : k.trap trap = some (outcome, k')) :
    k'.schedEnabled = k.schedEnabled ∧
      (k'.tickFlag = k.tickFlag ∨
        (trap = .event .timer ∧ outcome = .ret 0 .none)) := by
  cases trap with
  | event event =>
      refine ⟨handler_enabled htrap, ?_⟩
      rcases flags_handler htrap with hsame | ⟨rfl, hret, -⟩
      · exact .inl (congrArg Prod.snd hsame)
      · exact .inr ⟨rfl, hret⟩
  | execve entry store =>
      have hflags : k'.flags = k.flags := by
        have hk := congrArg Prod.snd (trap_execve hcurrent htrap)
        change k' = _ at hk
        rw [hk]
        unfold sysExecve
        dsimp only
        split_ifs <;> rfl
      exact ⟨congrArg Prod.fst hflags, .inl (congrArg Prod.snd hflags)⟩

/-- A process after a trap has the stack it had before, or it is new. -/
theorem trap_stacks (hinv : TableInv k) (hcurrent : k.currentProc = some self)
    (htrap : k.trap trap = some (outcome, k')) {pid : Nat}
    (hused : k'.state pid ≠ .unused) :
    (k.state pid ≠ .unused ∧
      (k'.procs pid).kstackBase = (k.procs pid).kstackBase) ∨
    (k.state pid = .unused ∧
      ∃ entry, newFrame k trap = some (pid, entry)) := by
  have hlast : Lasting k k' → k.state pid ≠ .unused ∧
      (k'.procs pid).kstackBase = (k.procs pid).kstackBase :=
    fun hlasting => ⟨(hlasting.1 pid hused).1, hlasting.2 pid hused⟩
  cases trap with
  | event event =>
      rcases handler_forked hinv htrap with
        ⟨-, hlasting⟩ | ⟨caller, child, hforked, -, hforks⟩
      · exact .inl (hlast hlasting)
      by_cases heq : pid = child
      · subst heq
        refine .inr ⟨hforks.free, ?_⟩
        -- only a fork has forked
        cases event with
        | syscall call =>
            cases call with
            | fork entry =>
                exact ⟨UInt32.ofNat entry, by rw [newFrame, hforked]; rfl⟩
            | _ => cases hforked
        | _ => cases hforked
      · exact .inl ⟨mt (hforks.state_iff heq (by decide) (by decide)).mpr hused,
          congrArg Kin.kstackBase (hforks.kin pid heq)⟩
  | execve entry store =>
      have hstirs := sysExecve_stirs k self entry store
      rw [← trap_execve hcurrent htrap] at hstirs
      exact .inl (hlast hstirs.mild.lasting)

/-- A RUNNING process is not given a new frame, and a process with a new
frame is READY. -/
theorem newFrame_ready (hinv : TableInv k)
    (htrap : k.trap trap = some (outcome, k')) {new : Nat × UInt32}
    (hnew : newFrame k trap = some new) :
    k.state new.1 ≠ .running ∧ k'.state new.1 = .ready := by
  unfold newFrame at hnew
  split at hnew
  · obtain ⟨⟨caller, child⟩, hforked, rfl⟩ := Option.map_eq_some_iff.mp hnew
    rcases handler_forked hinv htrap with
      ⟨hnone, -⟩ | ⟨caller', child', hsome, -, hforks⟩
    · rw [hnone] at hforked
      cases hforked
    · rw [hsome] at hforked
      obtain ⟨rfl, rfl⟩ := Prod.mk.inj (Option.some.inj hforked)
      exact ⟨hforks.free ▸ nofun, hforks.ready⟩
  · rename_i request entry'
    split_ifs at hnew with hentry
    obtain ⟨p, hget, hp⟩ := Option.bind_eq_some_iff.mp hnew
    split_ifs at hp with hrunning
    rw [← Option.some.inj hp]
    refine ⟨hrunning, ?_⟩
    have hexec : k' = (procExec k p entry').2 := by
      obtain ⟨caller, -, hhandles⟩ := handler_handles htrap
      cases hhandles with
      | call _ hcall =>
          have hcall := Option.some.inj hcall
          unfold sysExec at hcall
          rw [hget] at hcall
          dsimp only at hcall
          rw [if_neg hentry] at hcall
          split_ifs at hcall <;> exact (Prod.mk.inj hcall).2.symm
    rcases procExec_restarts k p entry' with ⟨hrun, -⟩ | ⟨-, hrestarts⟩
    · exact absurd hrun hrunning
    · rw [hexec]
      exact hrestarts.ready
  · cases hnew

theorem procWait_destroys {pid child : Nat} {outCode : Bool}
    (hinv : TableInv k) (hwait : procWait k self pid outCode =
      some (outcome, k'))
    (hreturns : waitReturns (some (outcome, k')) = some child) :
    k'.state child = .unused := by
  unfold procWait at hwait
  split at hwait
  · obtain ⟨rfl, -⟩ := Prod.mk.inj (Option.some.inj hwait)
    cases hreturns
  · rename_i z _
    obtain ⟨k₁, hdestroy, hpair⟩ := Option.map_eq_some_iff.mp hwait
    obtain ⟨rfl, rfl⟩ := Prod.mk.inj hpair
    obtain rfl : (k.procs z).pid = child := Option.some.inj hreturns
    rw [hinv.pid, Kernel.state, (procDestroy_destroys hinv hdestroy).blank]
    rfl

theorem destroyed_unused (hinv : TableInv k)
    (htrap : k.trap trap = some (outcome, k')) {child : Nat}
    (hgone : destroyed k trap = some child) : k'.state child = .unused := by
  cases trap with
  | execve entry store => cases hgone
  | event event =>
      obtain ⟨⟨caller, z⟩, hreaped, rfl⟩ := Option.map_eq_some_iff.mp hgone
      obtain ⟨self, hcurrent, hhandles⟩ := handler_handles htrap
      unfold reaped at hreaped
      split at hreaped
      · cases hhandles with
        | call _ hcall =>
            rw [hcurrent, Option.bind_some, hcall] at hreaped
            obtain ⟨child, hreturns, hpair⟩ :=
              Option.map_eq_some_iff.mp hreaped
            obtain ⟨-, rfl⟩ := Prod.mk.inj hpair
            exact procWait_destroys hinv hcall hreturns
      · split at hreaped
        · rename_i caller pid outCode hcaller hwait
          obtain rfl := Option.some.inj (hcurrent.symm.trans hcaller)
          cases hhandles with
          | resume hresume hcall =>
              obtain rfl := Option.some.inj (hresume.symm.trans hwait)
              rw [hcall] at hreaped
              obtain ⟨child, hreturns, hpair⟩ :=
                Option.map_eq_some_iff.mp hreaped
              obtain ⟨-, rfl⟩ := Prod.mk.inj hpair
              have hself := hinv.current self hcurrent
              have hleaves := resumed_leaves k self (.wait pid outCode)
              exact procWait_destroys (hinv.leaves hleaves hself hself) hcall
                hreturns
        · cases hreaped
      · cases hreaped

end Traps

/-- The stack of the process lies in the address space. -/
def Kernel.HasStack (place : Ref → UInt32) (k : Kernel) (pid : Nat) : Prop :=
  0 < k.stackBase place pid ∧ k.stackBase place pid + kstackSize < 2 ^ 32

/-- The address is on the stack of the process. -/
def Kernel.OnStack (place : Ref → UInt32) (k : Kernel) (pid x : Nat) : Prop :=
  k.stackBase place pid ≤ x ∧ x < k.stackBase place pid + kstackSize

/-- The stacks in use lie in the address space, apart from each other. -/
structure Apart (place : Ref → UInt32) (k : Kernel) : Prop where
  valid : ∀ pid, k.state pid ≠ .unused → 0 < k.stackBase place pid ∧
    k.stackBase place pid + kstackSize < 2 ^ 32
  apart : ∀ pid other, k.state pid ≠ .unused → k.state other ≠ .unused →
    other ≠ pid →
    k.stackBase place other + kstackSize ≤ k.stackBase place pid ∨
    k.stackBase place pid + kstackSize ≤ k.stackBase place other

/-- How `pid` was last left: with a frame on its own stack that still holds
what it held then, and whose address is in the process table. -/
structure Left (place : Ref → UInt32) (c : CpuRun) (pid : Nat) (m : Moment) :
    Prop where
  last : latest c.moments pid = some m
  saved : c.espKernel pid = m.esp
  low : c.kernel.stackBase place pid ≤ m.esp.toNat
  high : m.esp.toNat + frameSize ≤ c.kernel.stackBase place pid + kstackSize
  frame : regsAt c.mem m.esp = m.frame
  regs : m.frame.regs (m.esp + UInt32.ofNat frameSize) = m.regs

/-- Everybody but `self` can be dispatched. -/
def Dispatchable (place : Ref → UInt32) (c : CpuRun) (self : Nat) : Prop :=
  ∀ pid, c.kernel.state pid ≠ .unused → pid ≠ self → ∃ m, Left place c pid m

/-- The dispatch was one to the frame with which the process was left. -/
def Dispatch.Faithful (d : Dispatch) : Prop :=
  d.value ≠ 0 ∧ ∃ m, d.last = some m ∧ d.value = m.esp ∧ d.frame = m.frame ∧
    d.restored = m.regs

section Stacks

variable {place : Ref → UInt32} {k k' : Kernel} {c c' : CpuRun} {pid : Nat}

theorem stackBase_congr
    (hsame : (k'.procs pid).kstackBase = (k.procs pid).kstackBase) :
    k'.stackBase place pid = k.stackBase place pid := by
  unfold Kernel.stackBase
  rw [hsame]

theorem kstackTop_toNat (hvalid : k.HasStack place pid) :
    (k.kstackTop place pid).toNat =
      k.stackBase place pid + kstackSize := by
  unfold Kernel.HasStack Kernel.stackBase Kernel.kstackTop at *
  split
  · rename_i hnone
    rw [hnone] at hvalid
    exact absurd hvalid.1 (Nat.lt_irrefl 0)
  · rename_i base hbase
    rw [hbase] at hvalid
    rw [UInt32.toNat_add, UInt32.toNat_ofNat_of_lt' (by decide)]
    exact Nat.mod_eq_of_lt hvalid.2

theorem Apart.not_onStack (hapart : Apart place k) {other x : Nat}
    (hused : k.state pid ≠ .unused) (hother : k.state other ≠ .unused)
    (hne : other ≠ pid) (hx : k.OnStack place pid x) :
    ¬ k.OnStack place other x := by
  have hdisj := hapart.apart pid other hused hother hne
  unfold Kernel.OnStack at *
  omega

theorem Apart.lasting (hapart : Apart place k) (hlasting : Lasting k k') :
    Apart place k' := by
  have hbase : ∀ pid, k'.state pid ≠ .unused →
      k.state pid ≠ .unused ∧
        k'.stackBase place pid = k.stackBase place pid := fun pid hused =>
    ⟨(hlasting.1 pid hused).1, stackBase_congr (hlasting.2 pid hused)⟩
  constructor
  · intro pid hused
    rw [(hbase pid hused).2]
    exact hapart.valid pid (hbase pid hused).1
  · intro pid other hused hother hne
    rw [(hbase pid hused).2, (hbase other hother).2]
    exact hapart.apart pid other (hbase pid hused).1 (hbase other hother).1 hne

theorem roomFor_spec (hinv : TableInv k') (hroom : roomFor place k k' = true)
    (hold : k.state pid = .unused) (hused : k'.state pid ≠ .unused) :
    k'.HasStack place pid ∧
    ∀ other, k'.state other ≠ .unused → other ≠ pid →
      k'.stackBase place other + kstackSize ≤ k'.stackBase place pid ∨
      k'.stackBase place pid + kstackSize ≤ k'.stackBase place other := by
  have hall := List.all_eq_true.mp hroom pid
    (List.mem_range.mpr (hinv.range pid hused).2)
  simp only [hold, bne_self_eq_false, Bool.false_or, Bool.or_eq_true,
    beq_iff_eq, hused, false_or, Bool.and_eq_true, decide_eq_true_eq,
    List.all_eq_true, List.mem_range] at hall
  refine ⟨hall.1, fun other hother hne => ?_⟩
  rcases hall.2 other (hinv.range other hother).2 with (heq | hunused) | hdisj
  · exact absurd heq hne
  · exact absurd hunused hother
  · exact hdisj

theorem spared_spec {self : Nat} {writes : List (Nat × UInt8)}
    (hinv : TableInv k) (hspared : k.spared place self writes = true)
    (hused : k.state pid ≠ .unused) (hne : pid ≠ self) {x : Nat}
    (hx : k.OnStack place pid x) :
    ∀ write ∈ writes, write.1 ≠ x := by
  intro write hmem
  have hall := List.all_eq_true.mp (List.all_eq_true.mp hspared write hmem) pid
    (List.mem_range.mpr (hinv.range pid hused).2)
  simp only [Bool.or_eq_true, beq_iff_eq, hne, hused, false_or,
    decide_eq_true_eq] at hall
  unfold Kernel.OnStack at hx
  omega

/-- A frame stays as it is while nobody touches the stack and the entry of its
process. -/
theorem Left.congr {m : Moment} (hleft : Left place c pid m)
    (hvalid : c.kernel.HasStack place pid)
    (hbase : c'.kernel.stackBase place pid = c.kernel.stackBase place pid)
    (hlatest : latest c'.moments pid = latest c.moments pid)
    (hsaved : c'.espKernel pid = c.espKernel pid)
    (hmem : ∀ x, c.kernel.OnStack place pid x → c'.mem x = c.mem x) :
    Left place c' pid m := by
  have hlow := hleft.low
  have hhigh := hleft.high
  refine ⟨hlatest.trans hleft.last, hsaved.trans hleft.saved, by rwa [hbase],
    by rwa [hbase], ?_, hleft.regs⟩
  rw [← hleft.frame]
  have hend := hvalid.2
  exact regsAt_congr (by omega) fun x hx hx' => hmem x ⟨by omega, by omega⟩

theorem latest_cons_self (m : Moment) (moments : List Moment) :
    latest (m :: moments) m.pid = some m := by
  simp [latest]

theorem latest_cons_of_ne {m : Moment} (moments : List Moment)
    (hne : pid ≠ m.pid) : latest (m :: moments) pid = latest moments pid := by
  have hfalse : (m.pid == pid) = false := beq_false_of_ne hne.symm
  rw [latest, List.find?_cons, hfalse]
  rfl

/-- A dispatch to a process that is left with a frame. -/
theorem Left.faithful {m : Moment} (hleft : Left place c pid m)
    (hvalid : 0 < c.kernel.stackBase place pid) (scratch : Regs) :
    Dispatch.Faithful ⟨pid, c.espKernel pid, latest c.moments pid,
      regsAt c.mem (c.espKernel pid),
      ((Cpu.mk { scratch with esp := c.espKernel pid } c.mem).run
        stubReturn).regs⟩ := by
  have hlow := hleft.low
  refine ⟨?_, m, hleft.last, hleft.saved, ?_, ?_⟩
  · dsimp only
    rw [hleft.saved]
    intro hzero
    rw [hzero] at hlow
    exact absurd hvalid (Nat.not_lt.mpr hlow)
  · dsimp only
    rw [hleft.saved, hleft.frame]
  · dsimp only
    rw [stubReturn_regs, hleft.saved, hleft.frame, hleft.regs]

theorem Dispatchable.congr {self : Nat} (hwaiting : Dispatchable place c self)
    (hapart : Apart place c.kernel) (hkernel : c'.kernel = c.kernel)
    (hmoments : c'.moments = c.moments)
    (hsaved : ∀ pid, c.kernel.state pid ≠ .unused →
      c'.espKernel pid = c.espKernel pid)
    (hmem : ∀ pid, c.kernel.state pid ≠ .unused → pid ≠ self →
      ∀ x, c.kernel.OnStack place pid x → c'.mem x = c.mem x) :
    Dispatchable place c' self := by
  intro pid hused hne
  rw [hkernel] at hused
  obtain ⟨m, hleft⟩ := hwaiting pid hused hne
  refine ⟨m, hleft.congr (hapart.valid pid hused) (by rw [hkernel])
    (by rw [hmoments]) (hsaved pid hused) (hmem pid hused hne)⟩

theorem procInitFrame_keeps (c : CpuRun) (entry : UInt32) :
    (c.procInitFrame place pid entry).kernel = c.kernel ∧
      (c.procInitFrame place pid entry).dispatched = c.dispatched := by
  unfold CpuRun.procInitFrame
  dsimp only
  split_ifs <;> exact ⟨rfl, rfl⟩

/-- `proc_init_frame` writes a frame at the top of the stack. -/
theorem procInitFrame_eq (c : CpuRun) (entry : UInt32)
    (hvalid : c.kernel.HasStack place pid) :
    ∃ s, PushesFrame ⟨c.mem, c.kernel.kstackTop place pid⟩ (freshFrame entry) s ∧
      c.procInitFrame place pid entry =
        { c with
          mem := s.mem
          espKernel := Function.update c.espKernel pid s.sp
          moments := .init pid s.sp entry :: c.moments } := by
  have htop := kstackTop_toNat hvalid
  have hnonzero : c.kernel.kstackTop place pid ≠ 0 := by
    intro hzero
    rw [hzero, UInt32.toNat_zero] at htop
    have hpos := hvalid.1
    omega
  have hroom : frameSize ≤ (c.kernel.kstackTop place pid).toNat := by
    rw [htop]
    unfold frameSize kstackSize
    omega
  refine ⟨_, initFrame_pushesFrame c.mem entry hroom, ?_⟩
  unfold CpuRun.procInitFrame
  dsimp only
  rw [if_neg hnonzero]

theorem procInitFrame_of_outside (c : CpuRun) (entry : UInt32)
    (hvalid : c.kernel.HasStack place pid) {x : Nat}
    (hx : ¬ c.kernel.OnStack place pid x) :
    (c.procInitFrame place pid entry).mem x = c.mem x := by
  obtain ⟨s, hpushes, heq⟩ := procInitFrame_eq c entry hvalid
  have hsp := hpushes.toNat
  have htop := kstackTop_toNat hvalid
  rw [heq]
  refine hpushes.outside x ?_
  dsimp only at hsp ⊢
  unfold Kernel.OnStack frameSize kstackSize at *
  omega

/-- After `proc_init_frame` its process can be dispatched, and the others as
before. -/
theorem procInitFrame_dispatchable {self : Nat} (hapart : Apart place c.kernel)
    (hpid : c.kernel.state pid ≠ .unused) (entry : UInt32)
    (hothers : ∀ other, c.kernel.state other ≠ .unused → other ≠ self →
      other ≠ pid → ∃ m, Left place c other m) :
    Dispatchable place (c.procInitFrame place pid entry) self := by
  have hvalid := hapart.valid pid hpid
  obtain ⟨s, hpushes, heq⟩ := procInitFrame_eq c entry hvalid
  intro other hused hne
  rw [(procInitFrame_keeps c entry).1] at hused
  by_cases hother : other = pid
  · subst hother
    have hsp := hpushes.toNat
    have htop := kstackTop_toNat hvalid
    dsimp only at hsp
    rw [heq]
    refine ⟨.init other s.sp entry, latest_cons_self (.init other s.sp entry) _,
      Function.update_self .., ?_, ?_, hpushes.frame, freshFrame_regs entry _⟩
    · change c.kernel.stackBase place other ≤ s.sp.toNat
      unfold frameSize kstackSize at *
      omega
    · change s.sp.toNat + frameSize ≤
        c.kernel.stackBase place other + kstackSize
      omega
  · obtain ⟨m, hleft⟩ := hothers other hused hne hother
    refine ⟨m, hleft.congr (hapart.valid other hused)
      (by rw [(procInitFrame_keeps c entry).1]) ?_ ?_ fun x hx => ?_⟩
    · rw [heq]
      exact latest_cons_of_ne c.moments hother
    · rw [heq]
      exact Function.update_of_ne hother ..
    · exact procInitFrame_of_outside c entry hvalid
        (hapart.not_onStack hused hpid (Ne.symm hother) hx)

end Stacks

section Passages

variable {place : Ref → UInt32} {k k' : Kernel} {c c' : CpuRun} {e : Passage}
  {self : Nat} {outcome : Outcome}

/-- What `Passage.fits` asks for. -/
structure Fits (place : Ref → UInt32) (e : Passage) (k : Kernel) (cur : Nat)
    (outcome : Outcome) (k' : Kernel) : Prop where
  room : k.stackBase place cur + frameSize ≤ e.regs.esp.toNat ∧
    e.regs.esp.toNat ≤ k.stackBase place cur + kstackSize
  innerRoom : ∀ cont, outcome = .yield cont →
    k.stackBase place cur + frameSize ≤ e.inner.esp.toNat ∧
    e.inner.esp.toNat ≤ k.stackBase place cur + kstackSize
  before : k.spared place cur e.before = true
  during : k'.spared place cur e.during = true
  frame : ∀ write ∈ e.during,
    write.1 < (e.regs.esp - UInt32.ofNat frameSize).toNat ∨
    (e.regs.esp - UInt32.ofNat frameSize).toNat + frameSize ≤ write.1
  fresh : roomFor place k k' = true

theorem Passage.fits_spec (hfits : e.fits place k self outcome k' = true) :
    Fits place e k self outcome k' := by
  unfold Passage.fits at hfits
  simp only [Bool.and_eq_true, List.all_eq_true, decide_eq_true_eq] at hfits
  obtain ⟨⟨⟨⟨⟨hroom, hinner⟩, hbefore⟩, hduring⟩, hframe⟩, hfresh⟩ := hfits
  refine ⟨of_decide_eq_true hroom, ?_, hbefore, hduring, hframe, hfresh⟩
  rintro cont rfl
  exact of_decide_eq_true hinner

theorem Trap.stub_eq (trap : Trap) :
    trap.stub = none ∨ trap.stub = some (stubEntry trap.intNo) := by
  cases trap with
  | event event =>
      cases event with
      | resume src => exact .inl rfl
      | _ => exact .inr rfl
  | execve entry store => exact .inr rfl

/-- A process that is not inside the kernel enters it through a stub. -/
theorem trap_stub {trap : Trap} (hresume : k.resume = none)
    (htrap : k.trap trap = some (outcome, k')) :
    trap.stub = some (stubEntry trap.intNo) := by
  refine trap.stub_eq.resolve_left fun hnone => ?_
  cases trap with
  | execve entry store => cases hnone
  | event event =>
      cases event with
      | resume src =>
          change k.handler (.resume src) = _ at htrap
          obtain ⟨self, -, hhandles⟩ := handler_handles htrap
          cases hhandles with
          | resume hcont _ =>
              rw [hresume] at hcont
              cases hcont
      | _ => cases hnone

theorem PushesFrame.sp_eq {s s' : Stack} {r : RegsT}
    (hpushes : PushesFrame s r s') :
    s'.sp = s.sp - UInt32.ofNat frameSize := by
  rw [← hpushes.back, UInt32.add_sub_cancel]

/-- The frame of the entry, and nothing else, is new on the stack. -/
theorem entered_of_outside (mem : Mem) {x : Nat}
    (hroom : k.hasRoom place self e.regs.esp = true)
    (hbefore : ∀ write ∈ e.before, write.1 ≠ x)
    (hx : ¬ k.OnStack place self x) : e.entered mem x = mem x := by
  have hroom := of_decide_eq_true hroom
  unfold Kernel.OnStack at hx
  have hbytes := putBytes_of_outside mem hbefore
  unfold Passage.entered
  rcases e.trap.stub_eq with hnone | hsome
  · rw [hnone]
    exact hbytes
  · rw [hsome]
    have hpushes := stubEntry_pushesFrame (putBytes mem e.before)
      e.trap.intNo (show frameSize ≤ e.regs.esp.toNat by omega)
    have hsp := hpushes.toNat
    refine (hpushes.outside x ?_).trans hbytes
    dsimp only at hsp ⊢
    omega

theorem attend_keeps (c : CpuRun) : (c.attend place e k').kernel = k' ∧
    (c.attend place e k').dispatched = c.dispatched := by
  unfold CpuRun.attend
  cases newFrame c.kernel e.trap <;> cases destroyed c.kernel e.trap
  all_goals first | exact ⟨rfl, rfl⟩ | exact procInitFrame_keeps _ _

/-- The processes that a handler has not destroyed can be dispatched. -/
theorem attend_dispatchable (hsound : Sound c.kernel)
    (hcurrent : c.kernel.currentProc = some self)
    (hapart : Apart place c.kernel) (hwaiting : Dispatchable place c self)
    (htrap : c.kernel.trap e.trap = some (outcome, k'))
    (hfits : Fits place e c.kernel self outcome k')
    (hapart' : Apart place k') :
    Dispatchable place (c.attend place e k') self := by
  have hinv := hsound.table
  have hinv' := (trap_sound hsound hcurrent htrap).1.table
  have hself := hinv.current self hcurrent
  -- the processes that were there before, after the entry
  have hentered : ∀ other, k'.state other ≠ .unused → other ≠ self →
      c.kernel.state other ≠ .unused → (k'.procs other).kstackBase =
        (c.kernel.procs other).kstackBase → ∃ m, Left place
          { c with kernel := k', mem := e.entered c.mem } other m := by
    intro other hused hne hold hsame
    obtain ⟨m, hleft⟩ := hwaiting other hold hne
    refine ⟨m, hleft.congr (hapart.valid other hold) (stackBase_congr hsame)
      rfl rfl fun x hx => ?_⟩
    exact entered_of_outside c.mem (decide_eq_true hfits.room)
      (spared_spec hinv hfits.before hold hne hx)
      (hapart.not_onStack hold hself (Ne.symm hne) hx)
  have hframes : ∃ c₂ : CpuRun, c₂.kernel = k' ∧ Dispatchable place c₂ self ∧
      (newFrame c.kernel e.trap).elim
        { c with kernel := k', mem := e.entered c.mem } (fun new =>
          CpuRun.procInitFrame place
            { c with kernel := k', mem := e.entered c.mem } new.1 new.2) =
        c₂ := by
    cases hnew : newFrame c.kernel e.trap with
    | none =>
        refine ⟨_, rfl, ?_, rfl⟩
        intro pid hused hne
        rcases trap_stacks hinv hcurrent htrap hused with
          ⟨hold, hsame⟩ | ⟨-, entry, hsome⟩
        · exact hentered pid hused hne hold hsame
        · rw [hnew] at hsome
          cases hsome
    | some new =>
        have hpid : k'.state new.1 ≠ .unused := by
          rw [(newFrame_ready hinv htrap hnew).2]
          decide
        refine ⟨_, (procInitFrame_keeps _ _).1,
          procInitFrame_dispatchable hapart' hpid new.2 ?_, rfl⟩
        intro other hused hne hother
        rcases trap_stacks hinv hcurrent htrap hused with
          ⟨hold, hsame⟩ | ⟨-, entry, hsome⟩
        · exact hentered other hused hne hold hsame
        · rw [hnew] at hsome
          exact absurd (congrArg Prod.fst (Option.some.inj hsome)).symm hother
  obtain ⟨c₂, rfl, hwaiting₂, hc₂⟩ := hframes
  unfold CpuRun.attend
  dsimp only
  rw [hc₂]
  refine hwaiting₂.congr hapart' ?_ ?_ ?_ ?_
  · cases destroyed c.kernel e.trap <;> rfl
  · cases destroyed c.kernel e.trap <;> rfl
  · intro pid hused
    cases hgone : destroyed c.kernel e.trap with
    | none => rfl
    | some child =>
        refine Function.update_of_ne ?_ ..
        rintro rfl
        exact hused (destroyed_unused hinv htrap hgone)
  · intro pid hused hne x hx
    have hspared := spared_spec hinv' hfits.during hused hne hx
    refine (putBytes_of_outside _ hspared).trans ?_
    cases destroyed c.kernel e.trap <;> rfl

end Passages

section Switching

variable {place : Ref → UInt32} {k k' : Kernel} {c c' : CpuRun} {e : Passage}
  {self : Nat} {outcome : Outcome}

theorem Apart.trap (hapart : Apart place k) (hsound : Sound k)
    (hcurrent : k.currentProc = some self) {trap : Trap}
    (htrap : k.trap trap = some (outcome, k'))
    (hroom : roomFor place k k' = true) : Apart place k' := by
  have hinv' := (trap_sound hsound hcurrent htrap).1.table
  have hcases : ∀ pid, k'.state pid ≠ .unused →
      (k.state pid ≠ .unused ∧
        k'.stackBase place pid = k.stackBase place pid) ∨
      k.state pid = .unused := by
    intro pid hused
    rcases trap_stacks hsound.table hcurrent htrap hused with
      ⟨hold, hsame⟩ | ⟨hnew, -⟩
    · exact .inl ⟨hold, stackBase_congr hsame⟩
    · exact .inr hnew
  constructor
  · intro pid hused
    rcases hcases pid hused with ⟨hold, hbase⟩ | hnew
    · rw [hbase]
      exact hapart.valid pid hold
    · exact (roomFor_spec hinv' hroom hnew hused).1
  · intro pid other hused hother hne
    rcases hcases pid hused with ⟨hold, hbase⟩ | hnew
    · rcases hcases other hother with ⟨hold', hbase'⟩ | hnew'
      · rw [hbase, hbase']
        exact hapart.apart pid other hold hold' hne
      · exact ((roomFor_spec hinv' hroom hnew' hother).2 pid hused
          (Ne.symm hne)).symm
    · exact (roomFor_spec hinv' hroom hnew hused).2 other hother hne

theorem schedSwitchEsp_quiet (hon : k.schedEnabled = true) (esp : Frame) :
    (schedSwitchEsp k esp).tickFlag = false := by
  unfold schedSwitchEsp
  split_ifs with hoff
  · rcases hoff with hoff | hoff
    · exact absurd hon hoff
    · exact Bool.not_eq_true _ ▸ hoff
  dsimp only
  split
  · rfl
  · unfold schedExpire
    split_ifs
    · rfl
    · split <;> rfl

theorem schedSwitchEsp_untouched (hquiet : k.tickFlag = false) (esp : Frame) :
    (schedSwitchEsp k esp).currentProc = k.currentProc := by
  unfold schedSwitchEsp
  rw [if_pos (.inr (by rw [hquiet]; decide))]

/-- Between two passages: the current process runs, and everybody else can be
dispatched.  A tick is pending at most from the time before the first process
has entered the kernel. -/
structure ContextInv (place : Ref → UInt32) (c : CpuRun) : Prop where
  sound : Sound c.kernel
  enabled : c.kernel.schedEnabled = true
  pending : c.kernel.tickFlag = true → c.kernel.resume = none ∧
    ∀ cur, c.kernel.currentProc = some cur → c.kernel.state cur = .running
  apart : Apart place c.kernel
  waiting : ∀ cur, c.kernel.currentProc = some cur → Dispatchable place c cur
  faithful : ∀ d ∈ c.dispatched, d.Faithful

/-- The same in the middle of a passage of `cur`, where a tick may be
pending. -/
structure Attended (place : Ref → UInt32) (c : CpuRun) (cur : Nat) :
    Prop where
  sound : Sound c.kernel
  enabled : c.kernel.schedEnabled = true
  current : c.kernel.currentProc = some cur
  apart : Apart place c.kernel
  waiting : Dispatchable place c cur
  faithful : ∀ d ∈ c.dispatched, d.Faithful

theorem Attended.used (hattended : Attended place c self) :
    c.kernel.state self ≠ .unused :=
  hattended.sound.table.current self hattended.current

/-- What a process writes to its own stack does not concern the others. -/
theorem Attended.ownStack (hattended : Attended place c self) {mem : Mem}
    (hmem : ∀ x, ¬ c.kernel.OnStack place self x → mem x = c.mem x) :
    Attended place { c with mem := mem } self := by
  have hwaiting : Dispatchable place { c with mem := mem } self := by
    refine hattended.waiting.congr hattended.apart rfl rfl (fun _ _ => rfl) ?_
    exact fun pid hused hne x hx => hmem x
      (hattended.apart.not_onStack hused hattended.used hne.symm hx)
  exact { hattended with waiting := hwaiting }

/-- The frame for which `sched_switch_esp` is called. -/
structure Framing (place : Ref → UInt32) (c : CpuRun) (cur : Nat)
    (esp intNo : UInt32) (regs : Regs) : Prop where
  low : c.kernel.stackBase place cur ≤ esp.toNat
  high : esp.toNat + frameSize ≤ c.kernel.stackBase place cur + kstackSize
  frame : regsAt c.mem esp = regs.saved intNo
  back : esp + UInt32.ofNat frameSize = regs.esp

theorem Dispatchable.lasting (hwaiting : Dispatchable place c self)
    (hapart : Apart place c.kernel) (hlasting : Lasting c.kernel k') :
    Dispatchable place { c with kernel := k' } self := by
  intro pid hused hne
  have hold := (hlasting.1 pid hused).1
  obtain ⟨m, hleft⟩ := hwaiting pid hold hne
  exact ⟨m, hleft.congr (hapart.valid pid hold)
    (stackBase_congr (hlasting.2 pid hused)) rfl rfl fun _ _ => rfl⟩

/-- Once the current process is left as well, everybody can be dispatched. -/
theorem saveCurrent_dispatchable (hapart : Apart place c.kernel)
    (hwaiting : Dispatchable place c self) {esp intNo : UInt32} {regs : Regs}
    (hframing : Framing place c self esp intNo regs) (next : Nat) :
    Dispatchable place (c.saveCurrent self esp intNo regs) next := by
  intro pid hused _
  by_cases heq : pid = self
  · subst heq
    refine ⟨.out pid esp intNo regs, latest_cons_self (.out pid esp intNo regs)
      _, Function.update_self .., hframing.low, hframing.high, hframing.frame,
      ?_⟩
    change (regs.saved intNo).regs (esp + UInt32.ofNat frameSize) = regs
    rw [hframing.back, saved_regs]
  · obtain ⟨m, hleft⟩ := hwaiting pid hused heq
    exact ⟨m, hleft.congr (hapart.valid pid hused) rfl
      (latest_cons_of_ne c.moments heq) (Function.update_of_ne heq ..)
      fun _ _ => rfl⟩

theorem dispatch_dispatchable {next : Nat} (hwaiting : Dispatchable place c next)
    (hapart : Apart place c.kernel) (scratch : Regs) :
    Dispatchable place (c.dispatch next scratch) next :=
  hwaiting.congr hapart rfl rfl (fun _ _ => rfl) fun _ _ _ _ _ => rfl

theorem Attended.switched (hattended : Attended place c self)
    {frame : Frame} (hframe : frame ≠ .null) {esp intNo : UInt32}
    {regs scratch : Regs} (hframing : c.kernel.tickFlag = true →
      Framing place c self esp intNo regs) :
    ContextInv place (c.schedSwitchEsp frame esp intNo regs scratch) := by
  obtain ⟨hsound, hon, hcurrent, hapart, hwaiting, hfaithful⟩ := hattended
  have hswitch := schedSwitchEsp_switches c.kernel frame
  have hlasting := hswitch.lasting
  have hsound' : Sound (Orion.schedSwitchEsp c.kernel frame) :=
    ⟨hsound.table.switches hswitch, hsound.framed.switches hframe hswitch⟩
  have hon' : (Orion.schedSwitchEsp c.kernel frame).schedEnabled = true :=
    (schedSwitchEsp_turn c.kernel frame).enabled.trans hon
  have hquiet' : (Orion.schedSwitchEsp c.kernel frame).tickFlag = true →
      (Orion.schedSwitchEsp c.kernel frame).resume = none ∧
        ∀ cur, (Orion.schedSwitchEsp c.kernel frame).currentProc = some cur →
          (Orion.schedSwitchEsp c.kernel frame).state cur = .running := by
    rw [schedSwitchEsp_quiet hon frame]
    exact fun h => absurd h Bool.false_ne_true
  have hapart' := hapart.lasting hlasting
  have huntouched := fun hquiet => @schedSwitchEsp_untouched c.kernel hquiet
    frame
  unfold CpuRun.schedSwitchEsp
  dsimp only
  rw [hcurrent]
  generalize Orion.schedSwitchEsp c.kernel frame = k' at *
  cases hnext : k'.currentProc with
  | none =>
      refine ⟨hsound', hon', hquiet', hapart', ?_, hfaithful⟩
      intro cur hcur
      rw [hnext] at hcur
      cases hcur
  | some next =>
      dsimp only
      split_ifs with hsame
      · refine ⟨hsound', hon', hquiet', hapart', ?_, hfaithful⟩
        intro cur hcur
        obtain rfl := Option.some.inj (hnext.symm.trans hcur)
        rw [hsame]
        exact hwaiting.lasting hapart hlasting
      have htick : c.kernel.tickFlag = true := by
        by_contra hquiet
        have hkept := huntouched (Bool.not_eq_true _ ▸ hquiet)
        rw [hnext, hcurrent] at hkept
        exact hsame (Option.some.inj hkept)
      have hready : c.kernel.state next = .ready := by
        rcases hswitch.current with hkept | ⟨other, hother, hready⟩
        · rw [hnext, hcurrent] at hkept
          exact absurd (Option.some.inj hkept) hsame
        · rw [hnext] at hother
          rwa [Option.some.inj hother]
      have hused : c.kernel.state next ≠ .unused := by
        rw [hready]
        decide
      have hsaved := fun other => saveCurrent_dispatchable hapart hwaiting
        (hframing htick) other
      refine ⟨hsound', hon', hquiet', hapart', ?_, ?_⟩
      · intro cur hcur
        obtain rfl := Option.some.inj (hnext.symm.trans hcur)
        exact (dispatch_dispatchable (hsaved next) hapart scratch).lasting hapart
          hlasting
      · intro d hd
        rcases List.mem_cons.mp hd with rfl | hd
        · obtain ⟨m, hleft⟩ := hsaved self next hused hsame
          exact hleft.faithful (hapart.valid next hused).1 scratch
        · exact hfaithful d hd

end Switching

section Steps

variable {place : Ref → UInt32} {c c' : CpuRun} {e : Passage} {self : Nat}

theorem toNat_sub_frameSize {esp : UInt32} (hroom : frameSize ≤ esp.toNat) :
    (esp - UInt32.ofNat frameSize).toNat + frameSize = esp.toNat := by
  have hsize : (UInt32.ofNat frameSize).toNat = frameSize := rfl
  have hle : UInt32.ofNat frameSize ≤ esp :=
    UInt32.le_iff_toNat_le.mpr (hsize ▸ hroom)
  rw [UInt32.toNat_sub_of_le _ _ hle, hsize, Nat.sub_add_cancel hroom]

theorem storeAll_esp (regs : Regs) (stores : List (Field × UInt32)) :
    (regs.storeAll stores).esp = regs.esp := by
  induction stores generalizing regs with
  | nil => rfl
  | cons store rest ih =>
      obtain ⟨field, value⟩ := store
      refine (ih _).trans ?_
      cases field <;> rfl

/-- A handler leaves the frame of its entry as it is, unless it gives its own
process a new one. -/
theorem attend_frame {k' : Kernel} (hapart' : Apart place k')
    (hself' : k'.state self ≠ .unused)
    (hstub : e.trap.stub = some (stubEntry e.trap.intNo))
    (hnew : ∀ new, newFrame c.kernel e.trap = some new →
      new.1 ≠ self ∧ k'.state new.1 ≠ .unused)
    (hroom : k'.hasRoom place self e.regs.esp = true)
    (hduring : ∀ write ∈ e.during,
      write.1 < (e.regs.esp - UInt32.ofNat frameSize).toNat ∨
      (e.regs.esp - UInt32.ofNat frameSize).toNat + frameSize ≤ write.1) :
    regsAt (c.attend place e k').mem (e.regs.esp - UInt32.ofNat frameSize) =
      e.regs.saved e.trap.intNo := by
  obtain ⟨hlow, hhigh⟩ := of_decide_eq_true hroom
  have hlt := e.regs.esp.toNat_lt
  have hsp := @toNat_sub_frameSize e.regs.esp (by omega)
  have hpushes := stubEntry_pushesFrame (putBytes c.mem e.before) e.trap.intNo
    (show frameSize ≤ e.regs.esp.toNat by omega)
  have hentered : e.entered c.mem = (pushFrame (putBytes c.mem e.before) e.regs
      (stubEntry e.trap.intNo)).mem := by
    unfold Passage.entered
    rw [hstub]
  rw [← hpushes.frame, hpushes.sp_eq, ← hentered]
  refine regsAt_congr (by omega) fun x hx hx' => ?_
  unfold CpuRun.attend
  dsimp only
  refine (putBytes_of_outside _ fun write hwrite => ?_).trans ?_
  · have houtside := hduring write hwrite
    omega
  refine Eq.trans (b := CpuRun.mem ((newFrame c.kernel e.trap).elim
    { c with kernel := k', mem := e.entered c.mem } fun new =>
      CpuRun.procInitFrame place
        { c with kernel := k', mem := e.entered c.mem } new.1 new.2) x) ?_ ?_
  · cases destroyed c.kernel e.trap <;> rfl
  cases hsome : newFrame c.kernel e.trap with
  | none => rfl
  | some new =>
      obtain ⟨hne, hused⟩ := hnew new hsome
      have hstack : k'.HasStack place new.1 := hapart'.valid new.1 hused
      exact procInitFrame_of_outside _ new.2 hstack
        (hapart'.not_onStack hself' hused hne ⟨by omega, by omega⟩)

theorem Attended.settle_ret {value : Int} {reply : Reply}
    (hattended : Attended place c self)
    (hroom : c.kernel.hasRoom place self e.regs.esp = true)
    (hframe : c.kernel.tickFlag = true →
      regsAt c.mem (e.regs.esp - UInt32.ofNat frameSize) =
        e.regs.saved e.trap.intNo) :
    ContextInv place (c.settle e (.ret value reply)) := by
  obtain ⟨hlow, hhigh⟩ := of_decide_eq_true hroom
  have hsp := @toNat_sub_frameSize e.regs.esp (by omega)
  unfold CpuRun.settle
  dsimp only
  generalize hmem : storeAll c.mem (e.regs.esp - UInt32.ofNat frameSize)
    (e.trap.stores value) = mem
  have hstored : Attended place { c with mem := mem } self := by
    refine hattended.ownStack fun x hx => ?_
    rw [← hmem]
    unfold Kernel.OnStack at hx
    exact storeAll_of_outside c.mem (by omega)
  refine hstored.switched Frame.noConfusion fun htick => ?_
  refine ⟨?_, ?_, ?_, ?_⟩
  · change c.kernel.stackBase place self ≤ _
    omega
  · change _ ≤ c.kernel.stackBase place self + kstackSize
    omega
  · have hlt := e.regs.esp.toNat_lt
    rw [← hmem]
    exact regsAt_storeAll (by omega) (hframe htick)
  · rw [storeAll_esp]
    exact UInt32.sub_add_cancel _ _

theorem Attended.forced (hattended : Attended place c self) :
    Attended place { c with kernel := schedForceSwitch c.kernel } self := by
  have hforced := schedForceSwitch_undisturbed c.kernel
  have hstirs := (schedForceSwitch_still c.kernel).calm.toStirs
  have hlasting := hstirs.mild.lasting
  exact ⟨⟨hattended.sound.table.stirs hstirs,
    hattended.sound.framed.mild hstirs.mild⟩,
    hforced.enabled.trans hattended.enabled,
    hforced.current.trans hattended.current, hattended.apart.lasting hlasting,
    hattended.waiting.lasting hattended.apart hlasting, hattended.faithful⟩

theorem Attended.settle_yield {cont : Cont}
    (hattended : Attended place c self)
    (hroom : c.kernel.hasRoom place self e.inner.esp = true) :
    ContextInv place (c.settle e (.yield cont)) := by
  obtain ⟨hlow, hhigh⟩ := of_decide_eq_true hroom
  have hbase : (schedForceSwitch c.kernel).stackBase place self =
      c.kernel.stackBase place self :=
    stackBase_congr (congrArg Kin.kstackBase
      ((schedForceSwitch_still c.kernel).kin self))
  have hpushes : PushesFrame ⟨c.mem, e.inner.esp⟩ (e.inner.saved 0x80)
      (pushFrame c.mem e.inner syscallEntry) :=
    stubEntry_pushesFrame c.mem 0x80 (by omega)
  have hsp := hpushes.toNat
  have hback := hpushes.back
  dsimp only at hsp hback
  unfold CpuRun.settle
  dsimp only
  generalize pushFrame c.mem e.inner syscallEntry = s at *
  have hstored : Attended place
      { c with mem := storeAll s.mem s.sp [(.eax, 0)] } self := by
    refine hattended.ownStack fun x hx => ?_
    unfold Kernel.OnStack at hx
    refine (storeAll_of_outside s.mem (by omega)).trans (hpushes.outside x ?_)
    dsimp only
    omega
  refine hstored.forced.switched Frame.noConfusion fun _ => ?_
  refine ⟨?_, ?_, regsAt_storeAll ?_ hpushes.frame, hback⟩
  · change (schedForceSwitch c.kernel).stackBase place self ≤ _
    omega
  · change _ ≤ (schedForceSwitch c.kernel).stackBase place self + kstackSize
    omega
  · have hlt := e.inner.esp.toNat_lt
    omega

theorem CpuRun.step_contextInv (hinv : ContextInv place c)
    (hstep : c.step place e = some c') : ContextInv place c' := by
  unfold CpuRun.step at hstep
  split at hstep
  · rename_i cur outcome k' hcurrent htrap
    split_ifs at hstep with hguard
    rw [← Option.some.inj hstep]
    have hfits := Passage.fits_spec hguard
    obtain ⟨hsound', hcurrent'⟩ := trap_sound hinv.sound hcurrent htrap
    obtain ⟨henabled, hflag⟩ := trap_flags hcurrent htrap
    have hapart' := hinv.apart.trap hinv.sound hcurrent htrap hfits.fresh
    have hwaiting' := attend_dispatchable hinv.sound hcurrent hinv.apart
      (hinv.waiting cur hcurrent) htrap hfits hapart'
    have hfaithful' : ∀ d ∈ (c.attend place e k').dispatched, d.Faithful := by
      rw [(attend_keeps c).2]
      exact hinv.faithful
    have hbase : k'.stackBase place cur = c.kernel.stackBase place cur := by
      have hused := hsound'.table.current cur hcurrent'
      rcases trap_stacks hinv.sound.table hcurrent htrap hused with
        ⟨-, hsame⟩ | ⟨hunused, -⟩
      · exact stackBase_congr hsame
      · exact absurd hunused (hinv.sound.table.current cur hcurrent)
    have hroom : k'.hasRoom place cur e.regs.esp = true := by
      rw [Kernel.hasRoom, hbase]
      exact decide_eq_true hfits.room
    have hinner : ∀ cont, outcome = .yield cont →
        k'.hasRoom place cur e.inner.esp = true := by
      intro cont hyield
      rw [Kernel.hasRoom, hbase]
      exact decide_eq_true (hfits.innerRoom cont hyield)
    have hused' := hsound'.table.current cur hcurrent'
    have hframe : k'.tickFlag = true → regsAt (c.attend place e k').mem
        (e.regs.esp - UInt32.ofNat frameSize) =
          e.regs.saved e.trap.intNo := by
      intro htick
      rcases hflag with hsame | ⟨htimer, -⟩
      · rw [hsame] at htick
        obtain ⟨hresume, hrunning⟩ := hinv.pending htick
        refine attend_frame hapart' hused' (trap_stub hresume htrap)
          (fun new hnew => ⟨?_, ?_⟩) hroom hfits.frame
        · rintro rfl
          exact (newFrame_ready hinv.sound.table htrap hnew).1
            (hrunning _ hcurrent)
        · rw [(newFrame_ready hinv.sound.table htrap hnew).2]
          decide
      · refine attend_frame hapart' hused' ?_ (fun new hnew => ?_) hroom
          hfits.frame
        · rw [htimer]
          rfl
        · rw [htimer] at hnew
          cases hnew
    have hkernel := (@attend_keeps place k' e c).1
    generalize c.attend place e k' = c₁ at *
    subst hkernel
    have hattended : Attended place c₁ cur :=
      ⟨hsound', henabled.trans hinv.enabled, hcurrent', hapart', hwaiting',
        hfaithful'⟩
    cases outcome with
    | ret value reply => exact hattended.settle_ret hroom hframe
    | yield cont => exact hattended.settle_yield (hinner cont rfl)
  · cases hstep

end Steps

theorem boot_contextInv {place : Ref → UInt32} {refuses : Nat → Bool}
    {idleEntry : UInt32} {mem : Mem} {pending : Bool} {c : CpuRun}
    (hboot : CpuRun.boot place refuses idleEntry mem pending = some c) :
    ContextInv place c := by
  obtain ⟨k, hkernel, hrest⟩ := Option.bind_eq_some_iff.mp hboot
  obtain ⟨idle, hcurrent, hidle⟩ := Option.bind_eq_some_iff.mp hrest
  split_ifs at hidle with hvalid
  obtain ⟨hsound, hcont⟩ := boot_sound hkernel
  obtain ⟨cur, hcur, honly⟩ := boot_idle hkernel
  obtain rfl := Option.some.inj (hcurrent.symm.trans hcur)
  have hbusy := boot_busy hkernel
  have hresume : k.resume = none := by
    have hidle' := hcont idle
    rwa [Kernel.contOf, if_pos hcurrent] at hidle'
  have hstirs : Stirs k { k with tickFlag := pending } :=
    ⟨fun _ => rfl, fun _ => rfl, fun _ => .inl rfl, rfl, rfl, rfl⟩
  obtain ⟨hsame, hdispatched⟩ := @procInitFrame_keeps place idle
    ⟨{ k with tickFlag := pending }, mem, fun _ => 0, [], []⟩ idleEntry
  rw [Option.some.inj hidle] at hsame hdispatched
  constructor
  · rw [hsame]
    exact ⟨hsound.table.stirs hstirs, hsound.framed.mild hstirs.mild⟩
  · rw [hsame]
    exact hbusy.enabled
  · rw [hsame]
    refine fun _ => ⟨hresume, fun cur hcur => ?_⟩
    obtain ⟨other, hother, hrunning⟩ := hbusy.running
    obtain rfl := Option.some.inj (hother.symm.trans hcur)
    exact hrunning
  · rw [hsame]
    constructor
    · intro pid hused
      rw [(honly pid hused).1]
      exact hvalid
    · intro pid other hused hother hne
      exact absurd ((honly other hother).1.trans (honly pid hused).1.symm) hne
  · intro cur hcur pid hused hne
    rw [hsame] at hcur hused
    obtain rfl := Option.some.inj (hcurrent.symm.trans hcur)
    exact absurd (honly pid hused).1 hne
  · rw [hdispatched]
    rintro d ⟨⟩

/-- Over every run: whenever `sched_switch_esp` dispatches a process it returns
the address of the frame with which that process was last left, a frame pushed
by an entry stub for which it was switched out or one that `proc_init_frame`
has built since; the frame holds the registers as `regs_t` names them, with
what the handler stored there; and the stub restores exactly these. -/
theorem contexts_run_preserved (place : Ref → UInt32) (refuses : Nat → Bool)
    (idleEntry : UInt32) (mem : Mem) (pending : Bool)
    (passages : List Passage) (booted c : CpuRun)
    (hboot : CpuRun.boot place refuses idleEntry mem pending = some booted)
    (hrun : Machine.exec (CpuRun.step place) booted passages = some c) :
    ∀ d ∈ c.dispatched, d.value ≠ 0 ∧ ∃ m, d.last = some m ∧
      d.value = m.esp ∧ d.frame = m.frame ∧ d.restored = m.regs := by
  have hinv : ContextInv place c :=
    Machine.exec_invariant (fun _ _ _ => CpuRun.step_contextInv)
      (boot_contextInv hboot) hrun
  exact hinv.faithful

namespace ContextRunsWitness

/-- The blocks of the heap, page by page from 1 MB on. -/
def place (block : Ref) : UInt32 := 0x100000 + 0x1000 * UInt32.ofNat block

def regs (eax esp : UInt32) : Regs :=
  { freshRegs 0x4000 esp with eax := eax, ebx := 7 }

/-- A passage of a process whose stack ends at `top`. -/
def passage (event : Event) (top : UInt32) : Passage where
  trap := .event event
  regs := regs 2 top
  inner := regs 0 (top - 200)
  scratch := regs 9 0
  before := [((top - 4).toNat, 1)]
  during := [((top - 100).toNat, 2)]

/-- Process 1 forks process 2 and sleeps; it wakes up at the next tick and
goes on when process 2 sleeps. -/
def passages : List Passage :=
  [passage (.syscall (.fork 0x2000)) 0x10d000,
    passage (.syscall (.sleep 1)) 0x10d000,
    passage .timer 0x111000,
    passage (.syscall (.sleep 5)) 0x111000]

theorem both_go_on : ∃ booted c : CpuRun,
    CpuRun.boot place (fun _ => false) 0x1000 (fun _ => 0) true =
      some booted ∧
    Machine.exec (CpuRun.step place) booted passages = some c ∧
    (c.dispatched.map fun d => (d.pid, d.value, d.last)) =
      [(1, 0x10cef4, some (.out 1 0x10cef4 0x80 (regs 0 0x10cf38))),
        (2, 0x110fbc, some (.init 2 0x110fbc 0x2000))] ∧
    ∀ d ∈ c.dispatched, d.value ≠ 0 ∧ ∃ m, d.last = some m ∧
      d.value = m.esp ∧ d.frame = m.frame ∧ d.restored = m.regs := by
  have hview : ((CpuRun.boot place (fun _ => false) 0x1000 (fun _ => 0)
      true).bind fun booted =>
      (Machine.exec (CpuRun.step place) booted passages).map fun c =>
        c.dispatched.map fun d => (d.pid, d.value, d.last)) =
      some [(1, 0x10cef4, some (.out 1 0x10cef4 0x80 (regs 0 0x10cf38))),
        (2, 0x110fbc, some (.init 2 0x110fbc 0x2000))] := by decide +kernel
  obtain ⟨booted, hboot, hrest⟩ := Option.bind_eq_some_iff.mp hview
  obtain ⟨c, hrun, hdispatched⟩ := Option.map_eq_some_iff.mp hrest
  exact ⟨booted, c, hboot, hrun, hdispatched, contexts_run_preserved place _ _
    _ true passages booted c hboot hrun⟩

end ContextRunsWitness

end Orion
