/-
Descriptor tables and reference counts.  The references to an open file are
the descriptors that point to it, over all processes, and those that code
still holds in its hands.
-/
import Orion.FileCounts

namespace Orion

/-- All descriptors of all processes. -/
@[irreducible] def slots : Finset (Nat × Nat) :=
  Finset.range maxProcs ×ˢ Finset.range fdMax

/-- The number of descriptors that point to an open file. -/
def slotCount (tables : Nat → FdTable) (f : Nat) : Nat :=
  Occupancy.count slots (fun slot => tables slot.1 slot.2) f

/-- Write one descriptor of one process. -/
def setSlot (tables : Nat → FdTable) (pid fd : Nat) (value : Option Nat) :
    Nat → FdTable :=
  Function.update tables pid (Function.update (tables pid) fd value)

/-- The counts are those of the descriptors and of the references in `held`.
Old references of `base` are still no files. -/
structure TablesCounted (base s : Store) (tables : Nat → FdTable) (held : List Nat)
    (owed : List (Nat × Bool)) : Prop where
  inv : CountInv s (fun f => slotCount tables f + held.count f) owed
  since : ∀ ref, NotFile base ref → NotFile s ref

section Tables

variable {base s s' : Store} {tables tables' : Nat → FdTable}
  {held : List Nat} {owed : List (Nat × Bool)} {pid fd f : Nat}

theorem slots_eq : slots = Finset.range maxProcs ×ˢ Finset.range fdMax := by
  unfold slots
  with_reducible rfl

theorem mem_slots : (pid, fd) ∈ slots ↔ pid < maxProcs ∧ fd < fdMax := by
  rw [slots_eq]
  simp only [Finset.mem_product, Finset.mem_range]

theorem setSlot_uncurry (tables : Nat → FdTable) (pid fd : Nat)
    (value : Option Nat) :
    (fun slot : Nat × Nat => setSlot tables pid fd value slot.1 slot.2) =
      Function.update (fun slot : Nat × Nat => tables slot.1 slot.2) (pid, fd)
        value := by
  funext slot
  rcases slot with ⟨other, fd'⟩
  by_cases hpid : other = pid
  · subst hpid
    by_cases hfd : fd' = fd
    · simp [setSlot, hfd]
    · simp [setSlot, hfd]
  · simp [setSlot, hpid]

theorem slotCount_congr (htables : ∀ pid < maxProcs, ∀ fd < fdMax,
      tables' pid fd = tables pid fd) : slotCount tables' = slotCount tables := by
  funext f
  unfold slotCount Occupancy.count
  congr 1
  apply Finset.filter_congr
  rintro ⟨pid, fd⟩ hslot
  rw [mem_slots] at hslot
  simp only [htables pid hslot.1 fd hslot.2]

theorem slotCount_fill (hslot : (pid, fd) ∈ slots)
    (hempty : tables pid fd = none) (f : Nat) :
    slotCount (setSlot tables pid fd (some f)) =
      Function.update (slotCount tables) f (slotCount tables f + 1) := by
  funext g
  unfold slotCount
  rw [setSlot_uncurry, Occupancy.count_fill hslot hempty]

theorem slotCount_clear (hslot : (pid, fd) ∈ slots)
    (hfull : tables pid fd = some f) :
    slotCount (setSlot tables pid fd none) =
      Function.update (slotCount tables) f (slotCount tables f - 1) := by
  funext g
  unfold slotCount
  rw [setSlot_uncurry, Occupancy.count_clear hslot hfull]

theorem slotCount_pos (hslot : (pid, fd) ∈ slots)
    (hfull : tables pid fd = some f) : 0 < slotCount tables f :=
  Occupancy.count_pos_iff.mpr ⟨(pid, fd), hslot, hfull⟩

theorem card_slots : slots.card = 4096 := by
  rw [slots_eq]
  simp only [Finset.card_product, Finset.card_range, maxProcs, fdMax]

theorem slotCount_le (tables : Nat → FdTable) (f : Nat) :
    slotCount tables f ≤ 4096 := by
  rw [← card_slots]
  exact Finset.card_filter_le _ _

theorem TablesCounted.toInv (hcounted : TablesCounted base s tables [] owed) :
    CountInv s (slotCount tables) owed := by
  simpa using hcounted.inv

theorem TablesCounted.rebase (hcounted : TablesCounted base s tables held owed) :
    TablesCounted s s tables held owed :=
  ⟨hcounted.inv, fun _ href => href⟩

theorem TablesCounted.congr (hcounted : TablesCounted base s tables held owed)
    (htables : ∀ pid < maxProcs, ∀ fd < fdMax,
      tables' pid fd = tables pid fd) : TablesCounted base s tables' held owed := by
  refine ⟨?_, hcounted.since⟩
  rw [slotCount_congr htables]
  exact hcounted.inv

theorem TablesCounted.quiet (hcounted : TablesCounted base s tables held owed)
    (hquiet : Quiet s s') : TablesCounted base s' tables held owed :=
  ⟨hcounted.inv.quiet hquiet,
    fun ref href => hquiet.harmless.notFile (hcounted.since ref href)⟩

/-- There are never more open files than references. -/
theorem TablesCounted.card_le (hcounted : TablesCounted base s tables held owed)
    (v : Nat) : (filesOn s v).card ≤ 4096 + held.length := by
  have hunborn := hcounted.inv.typed.unborn
  have hone : ∀ f ∈ filesOn s v, 1 ≤ slotCount tables f + held.count f :=
    fun f hf => (hcounted.inv.live f).mp ((mem_filesOn hunborn).mp hf).1
  calc (filesOn s v).card
      = ∑ _f ∈ filesOn s v, 1 := by simp
    _ ≤ ∑ f ∈ filesOn s v, (slotCount tables f + held.count f) :=
        Finset.sum_le_sum hone
    _ = ∑ f ∈ filesOn s v, slotCount tables f +
          ∑ f ∈ filesOn s v, held.count f := Finset.sum_add_distrib
    _ ≤ 4096 + held.length := by
        apply Nat.add_le_add _ (Occupancy.sum_listCount_le held _)
        rw [← card_slots]
        exact Occupancy.sum_count_le slots _ _

/-- A new open file is held by who opened it. -/
theorem TablesCounted.opened (hcounted : TablesCounted base s tables held owed) {v : Nat}
    (hv : NotFile s v) (offset : Nat) (flags : UInt32)
    (hheld : held.length < 16) {owed' : List (Nat × Bool)}
    (howed : ∀ owes ∈ owed, owes ∈ owed' ∨ vnodeEnd s v = some owes) :
    TablesCounted base (openedFile s v offset flags) tables (s.next :: held)
      owed' := by
  have hcard := hcounted.card_le v
  obtain ⟨hzero, hinv⟩ := hcounted.inv.opened hv offset flags (by omega) howed
  refine ⟨?_, fun ref href =>
    openedFile_notFile v offset flags (hcounted.since ref href)⟩
  have hrefs : (fun f => slotCount tables f + (s.next :: held).count f) =
      Function.update (fun f => slotCount tables f + held.count f) s.next 1 := by
    refine Function.eq_update_iff.mpr ⟨?_, fun g hg => ?_⟩
    · rw [List.count_cons_self]
      omega
    · rw [List.count_cons_of_ne (Ne.symm hg)]
  rw [hrefs]
  exact hinv

/-- A held reference goes into a free descriptor. -/
theorem TablesCounted.install (hcounted : TablesCounted base s tables (f :: held) owed)
    (hslot : (pid, fd) ∈ slots) (hempty : tables pid fd = none) :
    TablesCounted base s (setSlot tables pid fd (some f)) held owed := by
  refine ⟨?_, hcounted.since⟩
  have hrefs : (fun g => slotCount (setSlot tables pid fd (some f)) g +
      held.count g) = fun g => slotCount tables g + (f :: held).count g := by
    funext g
    rw [slotCount_fill hslot hempty]
    by_cases hg : g = f
    · subst hg
      rw [Function.update_self, List.count_cons_self]
      omega
    · rw [Function.update_of_ne hg, List.count_cons_of_ne (Ne.symm hg)]
  rw [hrefs]
  exact hcounted.inv

/-- A held reference is closed. -/
theorem TablesCounted.closeHeld (hcounted : TablesCounted base s tables (f :: held) owed)
    (hheld : held.length < 16) :
    TablesCounted base (vfsClose s f).2 tables held owed := by
  have hle := slotCount_le tables f
  have hlen := held.count_le_length (a := f)
  have hpos : 0 < slotCount tables f + (f :: held).count f := by
    rw [List.count_cons_self]
    omega
  obtain ⟨hinv, hsince⟩ := hcounted.inv.close hpos (by
    rw [List.count_cons_self]
    omega)
  refine ⟨?_, fun ref href => hsince ref (hcounted.since ref href)⟩
  have hrefs : (fun g => slotCount tables g + held.count g) =
      Function.update (fun g => slotCount tables g + (f :: held).count g) f
        (slotCount tables f + (f :: held).count f - 1) := by
    refine Function.eq_update_iff.mpr ⟨?_, fun g hg => ?_⟩
    · rw [List.count_cons_self]
      omega
    · rw [List.count_cons_of_ne (Ne.symm hg)]
  rw [hrefs]
  exact hinv

/-- A descriptor is closed. -/
theorem TablesCounted.closeSlot (hcounted : TablesCounted base s tables held owed)
    (hheld : held.length < 16) (hslot : (pid, fd) ∈ slots)
    (hfull : tables pid fd = some f) :
    TablesCounted base (vfsClose s f).2 (setSlot tables pid fd none) held owed := by
  have hle := slotCount_le tables f
  have hlen := held.count_le_length (a := f)
  have hpos := slotCount_pos hslot hfull
  obtain ⟨hinv, hsince⟩ := hcounted.inv.close (f := f) (by omega) (by omega)
  refine ⟨?_, fun ref href => hsince ref (hcounted.since ref href)⟩
  have hrefs : (fun g => slotCount (setSlot tables pid fd none) g +
      held.count g) = Function.update (fun g => slotCount tables g +
        held.count g) f (slotCount tables f + held.count f - 1) := by
    rw [slotCount_clear hslot hfull]
    refine Function.eq_update_iff.mpr ⟨?_, fun g hg => ?_⟩
    · rw [Function.update_self]
      omega
    · rw [Function.update_of_ne hg]
  rw [hrefs]
  exact hinv

/-- A free descriptor is made to point to an open file. -/
theorem TablesCounted.shareSlot (hcounted : TablesCounted base s tables held owed)
    (hheld : held.length < 16) (hslot : (pid, fd) ∈ slots)
    (hempty : tables pid fd = none) (hf : 0 < slotCount tables f) :
    TablesCounted base (fileRef s f) (setSlot tables pid fd (some f)) held owed := by
  have hle := slotCount_le tables f
  have hlen := held.count_le_length (a := f)
  have hinv := hcounted.inv.share (f := f) (by omega) (by omega)
  refine ⟨?_, hcounted.since⟩
  have hrefs : (fun g => slotCount (setSlot tables pid fd (some f)) g +
      held.count g) = Function.update (fun g => slotCount tables g +
        held.count g) f (slotCount tables f + held.count f + 1) := by
    rw [slotCount_fill hslot hempty]
    refine Function.eq_update_iff.mpr ⟨?_, fun g hg => ?_⟩
    · rw [Function.update_self]
      omega
    · rw [Function.update_of_ne hg]
  rw [hrefs]
  exact hinv

theorem TablesCounted.perm (hcounted : TablesCounted base s tables held owed)
    {held' : List Nat} (hperm : held.Perm held') :
    TablesCounted base s tables held' owed := by
  refine ⟨?_, hcounted.since⟩
  simp only [← hperm.count_eq]
  exact hcounted.inv

end Tables

section Functions

variable {base s : Store} {tables : Nat → FdTable} {held : List Nat}
  {owed : List (Nat × Bool)} {pid : Nat}

theorem fdClose_counted (hcounted : TablesCounted base s tables held owed)
    (hheld : held.length < 16) (hpid : pid < maxProcs) (fd : Nat) :
    TablesCounted base (fdClose s (tables pid) fd).2.1
      (Function.update tables pid (fdClose s (tables pid) fd).2.2)
      held owed := by
  unfold fdClose
  split_ifs with hrange
  · rw [Function.update_eq_self]
    exact hcounted
  cases hslot : tables pid fd with
  | none =>
      dsimp only
      rw [Function.update_eq_self]
      exact hcounted
  | some f =>
      exact hcounted.closeSlot hheld
        (mem_slots.mpr ⟨hpid, Nat.lt_of_not_le hrange⟩) hslot

theorem fdCloseList_counted (hcounted : TablesCounted base s tables held owed)
    (hheld : held.length < 16) (hpid : pid < maxProcs) (fds : List Nat) :
    TablesCounted base (fdCloseList s (tables pid) fds).2.1
      (Function.update tables pid (fdCloseList s (tables pid) fds).2.2)
      held owed := by
  induction fds generalizing s tables with
  | nil =>
      rw [fdCloseList, Function.update_eq_self]
      exact hcounted
  | cons fd rest ih =>
      have hfirst := fdClose_counted hcounted hheld hpid fd
      have hrest := ih hfirst
      rw [Function.update_self, Function.update_idem] at hrest
      exact hrest

theorem fdCloseList_table (s : Store) (table : FdTable) (fds : List Nat)
    (fd : Nat) (hempty : fd ∈ fds ∧ fd < fdMax ∨ table fd = none) :
    (fdCloseList s table fds).2.2 fd = none := by
  induction fds generalizing s table with
  | nil =>
      rcases hempty with ⟨hmem, -⟩ | hnone
      · cases hmem
      · exact hnone
  | cons head rest ih =>
      apply ih
      by_cases hmem : fd ∈ rest ∧ fd < fdMax
      · exact .inl hmem
      refine .inr ?_
      unfold fdClose
      split_ifs with hrange
      · rcases hempty with ⟨hmem', hfd⟩ | hnone
        · rcases List.mem_cons.mp hmem' with rfl | hrest
          · exact absurd hrange (Nat.not_le.mpr hfd)
          · exact absurd ⟨hrest, hfd⟩ hmem
        · exact hnone
      · by_cases hhead : fd = head
        · subst hhead
          cases hslot : table fd with
          | none => exact hslot
          | some f => exact Function.update_self _ _ _
        · have hnone : table fd = none := by
            rcases hempty with ⟨hmem', hfd⟩ | hnone
            · rcases List.mem_cons.mp hmem' with rfl | hrest
              · exact absurd rfl hhead
              · exact absurd ⟨hrest, hfd⟩ hmem
            · exact hnone
          cases table head with
          | none => exact hnone
          | some f => exact (Function.update_of_ne hhead _ _).trans hnone

theorem fdTableCloseAll_table (s : Store) (table : FdTable) {fd : Nat}
    (hfd : fd < fdMax) : (fdTableCloseAll s table).2.2 fd = none :=
  fdCloseList_table s table _ fd (.inl ⟨List.mem_range.mpr hfd, hfd⟩)

theorem fdShareList_counted {parent child : Nat}
    (hcounted : TablesCounted base s tables held owed) (hheld : held.length < 16)
    (hparent : parent < maxProcs) (hchild : child < maxProcs)
    (hne : parent ≠ child) {fds : List Nat} (hnodup : fds.Nodup)
    (hrange : ∀ fd ∈ fds, fd < fdMax)
    (hempty : ∀ fd ∈ fds, tables child fd = none) :
    TablesCounted base (fdShareList s (tables parent) (tables child) fds).1
      (Function.update tables child
        (fdShareList s (tables parent) (tables child) fds).2) held owed := by
  induction fds generalizing s tables with
  | nil =>
      rw [fdShareList, Function.update_eq_self]
      exact hcounted
  | cons fd rest ih =>
      have hfd := hrange fd List.mem_cons_self
      have hnone := hempty fd List.mem_cons_self
      obtain ⟨hnew, hnodup'⟩ := List.nodup_cons.mp hnodup
      have hstep : TablesCounted base
          (fdShareList s (tables parent) (tables child) [fd]).1
          (setSlot tables child fd (tables parent fd)) held owed := by
        cases hslot : tables parent fd with
        | none =>
            simp only [fdShareList, hslot]
            apply hcounted.congr
            intro other _ fd' _
            rw [setSlot, ← hnone, Function.update_eq_self,
              Function.update_eq_self]
        | some f =>
            simp only [fdShareList, hslot]
            exact hcounted.shareSlot hheld (mem_slots.mpr ⟨hchild, hfd⟩) hnone
              (slotCount_pos (mem_slots.mpr ⟨hparent, hfd⟩) hslot)
      have hparent' : setSlot tables child fd (tables parent fd) parent =
          tables parent := Function.update_of_ne hne _ _
      have hchild' : setSlot tables child fd (tables parent fd) child =
          Function.update (tables child) fd (tables parent fd) :=
        Function.update_self _ _ _
      have hrest := ih hstep hnodup'
        (fun fd' hmem => hrange fd' (List.mem_cons_of_mem fd hmem))
        (fun fd' hmem => by
          have hother : fd' ≠ fd := fun h => hnew (h ▸ hmem)
          rw [hchild', Function.update_of_ne hother]
          exact hempty fd' (List.mem_cons_of_mem fd hmem))
      rw [hparent', hchild', setSlot, Function.update_idem] at hrest
      exact hrest

/-- Open a vnode and keep the result in hand. -/
theorem vfsOpenVnode_counted (hcounted : TablesCounted base s tables held owed)
    (hheld : held.length < 16) {v : Option Nat} (hv : ∀ r ∈ v, NotFile s r)
    (flags : UInt32) :
    TablesCounted base (vfsOpenVnode s v flags).2 tables
      ((vfsOpenVnode s v flags).1.toList ++ held) owed := by
  rcases vfsOpenVnode_cases hcounted.inv.typed v flags with
    ⟨s', hopen, hquiet⟩ | ⟨r, s₁, offset, rfl, hquiet, hopen⟩
  · rw [hopen]
    exact hcounted.quiet hquiet
  · rw [hopen]
    exact (hcounted.quiet hquiet).opened
      (hquiet.harmless.notFile (hv r rfl)) offset flags hheld
      fun owes hmem => .inl hmem

/-- Put what is in hand, if anything, into a free descriptor. -/
theorem TablesCounted.installOption {result : Option Nat} {fd : Nat}
    (hcounted : TablesCounted base s tables (result.toList ++ held) owed)
    (hslot : (pid, fd) ∈ slots) (hempty : tables pid fd = none) :
    TablesCounted base s (setSlot tables pid fd result) held owed := by
  cases result with
  | none =>
      apply TablesCounted.congr hcounted
      intro other _ fd' _
      rw [setSlot, ← hempty, Function.update_eq_self, Function.update_eq_self]
  | some f => exact TablesCounted.install hcounted hslot hempty

theorem setSlot_self (tables : Nat → FdTable) (pid fd : Nat)
    (value : Option Nat) :
    setSlot tables pid fd value pid = Function.update (tables pid) fd value :=
  Function.update_self _ _ _

theorem setSlot_of_ne {other : Nat} (hother : other ≠ pid) (fd : Nat)
    (value : Option Nat) : setSlot tables pid fd value other = tables other :=
  Function.update_of_ne hother _ _

theorem fdTableInit_counted (hcounted : TablesCounted base s tables [] owed)
    (hpid : pid < maxProcs) (hempty : ∀ fd < fdMax, tables pid fd = none) :
    TablesCounted base (fdTableInit s).1
      (Function.update tables pid (fdTableInit s).2) [] owed := by
  unfold fdTableInit
  dsimp only
  have hin := vfsOpenVnode_counted hcounted (by decide)
    hcounted.inv.typed.stdin oRdonly
  generalize vfsOpenVnode s s.stdinVnode oRdonly = stdin at hin ⊢
  have hout := vfsOpenVnode_counted hin (by cases stdin.1 <;> simp)
    hin.inv.typed.stdout oWronly
  generalize vfsOpenVnode stdin.2 stdin.2.stdoutVnode oWronly = stdout at hout ⊢
  have herr := vfsOpenVnode_counted hout
    (by cases stdin.1 <;> cases stdout.1 <;> simp)
    hout.inv.typed.stderr oWronly
  generalize vfsOpenVnode stdout.2 stdout.2.stderrVnode oWronly = stderr at herr ⊢
  have hslot : ∀ fd < 3, (pid, fd) ∈ slots :=
    fun fd hfd => mem_slots.mpr ⟨hpid, Nat.lt_trans hfd (by decide)⟩
  have hfree : ∀ fd < 3, tables pid fd = none :=
    fun fd hfd => hempty fd (Nat.lt_trans hfd (by decide))
  have htwo := herr.installOption (hslot 2 (by decide)) (hfree 2 (by decide))
  have hone := htwo.installOption (hslot 1 (by decide)) (by
    rw [setSlot_self, Function.update_of_ne (by decide)]
    exact hfree 1 (by decide))
  have hzero := hone.installOption (hslot 0 (by decide)) (by
    rw [setSlot_self, Function.update_of_ne (by decide), setSlot_self,
      Function.update_of_ne (by decide)]
    exact hfree 0 (by decide))
  apply hzero.congr
  intro other _ fd hfd
  by_cases hother : other = pid
  · subst hother
    rw [Function.update_self, setSlot_self, setSlot_self, setSlot_self]
    by_cases h0 : fd = 0
    · simp [h0]
    by_cases h1 : fd = 1
    · simp [h1]
    by_cases h2 : fd = 2
    · simp [h2]
    · simp [h0, h1, h2, hempty fd hfd]
  · rw [Function.update_of_ne hother, setSlot_of_ne hother,
      setSlot_of_ne hother, setSlot_of_ne hother]

end Functions

/-- The vnode of a pipe end that has been made and not yet opened. -/
structure EndReady (s : Store) (v p : Nat) (isWrite : Bool) : Prop where
  notFile : NotFile s v
  leads : vnodeEnd s v = some (p, isWrite)

section NewPipe

variable {base s s' : Store} {tables : Nat → FdTable}
  {owed : List (Nat × Bool)} {pid p v : Nat} {isWrite : Bool}

theorem EndReady.quiet (hready : EndReady s v p isWrite) (htyped : Typed s)
    (hquiet : Quiet s s') : EndReady s' v p isWrite :=
  ⟨hquiet.harmless.notFile hready.notFile,
    (hquiet.pipes.vnodeEnd_eq htyped hready.notFile.1).trans hready.leads⟩

theorem EndReady.opened (hready : EndReady s v p isWrite) (w offset : Nat)
    (flags : UInt32) : EndReady (openedFile s w offset flags) v p isWrite :=
  ⟨openedFile_notFile w offset flags hready.notFile,
    (openedFile_end w offset flags v).trans hready.leads⟩

/-- Opening the vnode of a pipe end pays that end. -/
theorem EndReady.openVnode {held : List Nat}
    (hready : EndReady s v p isWrite)
    (hcounted : TablesCounted base s tables held ((p, isWrite) :: owed))
    (hheld : held.length < 16) (flags : UInt32) :
    (∃ s', vfsOpenVnode s (some v) flags = (none, s')) ∨
    ∃ f s', vfsOpenVnode s (some v) flags = (some f, s') ∧
      TablesCounted base s' tables (f :: held) owed ∧
      ∀ w q side, EndReady s w q side → EndReady s' w q side := by
  have htyped := hcounted.inv.typed
  rcases vfsOpenVnode_cases htyped (some v) flags with
    ⟨s', hopen, -⟩ | ⟨r, s₁, offset, heq, hquiet, hopen⟩
  · exact .inl ⟨s', hopen⟩
  · cases heq
    have hready' := hready.quiet htyped hquiet
    refine .inr ⟨_, _, hopen, ?_, fun w q side hother =>
      (hother.quiet htyped hquiet).opened v offset flags⟩
    apply (hcounted.quiet hquiet).opened hready'.notFile offset flags hheld
    intro owes hmem
    rcases List.mem_cons.mp hmem with rfl | hmem
    · exact .inr hready'.leads
    · exact .inl hmem

/-- A new pipe end and its vnode. -/
theorem newEnd_quiet (htyped : Typed s) (hp : NotFile s p) (isWrite : Bool)
    (ops : VfsOps) :
    Quiet s ((s.grant .pipeEnd).setEnd s.next ⟨p, isWrite⟩) ∧
      Quiet s ((((s.grant .pipeEnd).setEnd s.next ⟨p, isWrite⟩).grant
        .vnode).setVnode (s.next + 1) ⟨.pipe, 0, 0, ops, some s.next⟩) := by
  have hnew := @grant_setEnd_quiet s htyped ⟨p, isWrite⟩ hp
  refine ⟨hnew, hnew.trans (newVnode_quiet hnew.typed .pipe ?_)⟩
  rintro - e ⟨⟩
  have hend : ((s.grant .pipeEnd).setEnd s.next ⟨p, isWrite⟩).ends s.next =
      ⟨p, isWrite⟩ := Function.update_self _ _ _
  rw [hend]
  refine ⟨⟨Nat.lt_succ_self _, ?_⟩, hnew.harmless.notFile hp⟩
  simp [Store.setEnd, Store.grant]

/-- After the pipe itself, the objects of `pipe_create` are made quietly. -/
theorem pipeStage_quiet (htyped : Typed s) {n : Nat} (hn : n < 5) :
    Gentle s (pipeStage s 1) ∧
      Quiet (pipeStage s 1) (pipeStage s (n + 1)) := by
  have hgrant := @grant_gentle s htyped .pipe (by decide) (by decide)
  have hpipe : Gentle s (pipeStage s 1) :=
    hgrant.trans (setPipe_gentle hgrant.typed _ _)
  have hp : NotFile (pipeStage s 1) s.next := by
    refine ⟨Nat.lt_succ_self _, ?_⟩
    simp [pipeStage, pipeScript, Store.setPipe, Store.grant]
  obtain ⟨hrend, hrv⟩ := newEnd_quiet hpipe.typed hp false .pipeRead
  obtain ⟨hwend, hwv⟩ := newEnd_quiet hrv.typed (hrv.harmless.notFile hp) true
    .pipeWrite
  refine ⟨hpipe, ?_⟩
  have hcases : n = 0 ∨ n = 1 ∨ n = 2 ∨ n = 3 ∨ n = 4 := by omega
  rcases hcases with rfl | rfl | rfl | rfl | rfl
  exacts [Quiet.refl hpipe.typed, hrend, hrv, hrv.trans hwend, hrv.trans hwv]

/-- With all its objects the pipe waits for its two ends to be opened. -/
theorem pipeStage_ready (hcounted : TablesCounted base s tables [] []) :
    TablesCounted base (pipeStage s 5) tables []
        [(s.next, false), (s.next, true)] ∧
      EndReady (pipeStage s 5) (s.next + 2) s.next false ∧
      EndReady (pipeStage s 5) (s.next + 4) s.next true := by
  obtain ⟨hpipe, hquiet⟩ :=
    @pipeStage_quiet s hcounted.inv.typed 4 (by decide)
  have hcounted₁ : TablesCounted base (pipeStage s 1) tables []
      [(s.next, false), (s.next, true)] :=
    ⟨hcounted.inv.newPipe, fun ref href =>
      hpipe.harmless.notFile (hcounted.since ref href)⟩
  refine ⟨hcounted₁.quiet hquiet, ⟨⟨?_, ?_⟩, ?_⟩, ⟨⟨?_, ?_⟩, ?_⟩⟩
  · exact (show s.next + 2 < s.next + 5 by omega)
  · simp [pipeStage, pipeScript, Store.grant, Store.setVnode, Store.setEnd,
      Store.setPipe]
  · simp [vnodeEnd, pipeStage, pipeScript, Store.grant, Store.setVnode,
      Store.setEnd]
  · exact (show s.next + 4 < s.next + 5 by omega)
  · simp [pipeStage, pipeScript, Store.grant, Store.setVnode, Store.setEnd,
      Store.setPipe]
  · simp [vnodeEnd, pipeStage, pipeScript, Store.grant, Store.setVnode,
      Store.setEnd]

theorem pipeInstall_counted {store : Store} {rend rv wend wv rf wf : Nat}
    {fds : Nat × Nat} (hcounted : TablesCounted base store tables [wf, rf] owed)
    (hpid : pid < maxProcs)
    (hfds : (pipeInstall store (tables pid) p rend rv wend wv rf wf).fds =
      some fds) :
    TablesCounted base
      (pipeInstall store (tables pid) p rend rv wend wv rf wf).store
      (Function.update tables pid
        (pipeInstall store (tables pid) p rend rv wend wv rf wf).table)
      [] owed := by
  unfold pipeInstall at hfds ⊢
  cases hread : fdInstall (tables pid) rf with
  | none =>
      rw [hread] at hfds
      cases hfds
  | some first =>
      obtain ⟨rfd, table⟩ := first
      obtain ⟨hrfd, hrfree, rfl⟩ := fdInstall_eq_some hread
      simp only [hread] at hfds ⊢
      cases hwrite : fdInstall (Function.update (tables pid) rfd (some rf)) wf with
      | none =>
          rw [hwrite] at hfds
          cases hfds
      | some second =>
          obtain ⟨wfd, table⟩ := second
          obtain ⟨hwfd, hwfree, rfl⟩ := fdInstall_eq_some hwrite
          have hone := (hcounted.perm (List.Perm.swap _ _ _)).install
            (mem_slots.mpr ⟨hpid, hrfd⟩) hrfree
          have htwo := hone.install (mem_slots.mpr ⟨hpid, hwfd⟩)
            (by rw [setSlot_self]; exact hwfree)
          rw [setSlot, setSlot, Function.update_self, Function.update_idem]
            at htwo
          exact htwo

/-- A successful `pipe_create` leaves its two files in two descriptors. -/
theorem pipeCreate_counted (hcounted : TablesCounted base s tables [] [])
    (hpid : pid < maxProcs) {fds : Nat × Nat}
    (hfds : (pipeCreate s (tables pid)).fds = some fds) :
    TablesCounted base (pipeCreate s (tables pid)).store
      (Function.update tables pid (pipeCreate s (tables pid)).table) [] [] := by
  rcases pipeCreate_cases s (tables pid) with ⟨n, -, -, heq⟩ | ⟨-, heq⟩
  · rw [heq] at hfds
    cases hfds
  rw [heq] at hfds ⊢
  obtain ⟨hcounted₁, hread, hwrite⟩ := pipeStage_ready hcounted
  unfold pipeOpenRead at hfds ⊢
  rcases hread.openVnode hcounted₁ (by decide) oRdonly with
    ⟨s', hopen⟩ | ⟨rf, s₂, hopen, hcounted₂, hkeep⟩
  · rw [hopen] at hfds
    cases hfds
  rw [hopen] at hfds ⊢
  dsimp only at hfds ⊢
  unfold pipeOpenWrite at hfds ⊢
  rcases (hkeep _ _ true hwrite).openVnode hcounted₂ (by simp) oWronly with
    ⟨s', hopen'⟩ | ⟨wf, s₃, hopen', hcounted₃, -⟩
  · rw [hopen'] at hfds
    cases hfds
  rw [hopen'] at hfds ⊢
  exact pipeInstall_counted hcounted₃ hpid hfds

end NewPipe

end Orion
