/-
Segments and the records of who waits.  Up to its own sleep a segment only
clears records, and it wakes whom it finds there; then the process may record
itself, on a pipe or with the keyboard.
-/
import Orion.PipeSlots

namespace Orion

/-- The end of a pipe on which a process sleeps in `pipe_block`. -/
def Cont.pipeEnd : Cont → Option (Ref × Bool)
  | .pipeRead _ p _ _ => some (p, false)
  | .pipeWrite _ p _ _ => some (p, true)
  | _ => none

/-- Does the process sleep in `kbd_read`? -/
def Cont.atKeyboard : Cont → Bool
  | .kbdRead _ _ => true
  | _ => false

/-- Somebody is recorded with the keyboard only while there is nothing to
read. -/
def Keyboard.Justified (kbd : Keyboard) : Prop :=
  kbd.waiterPid ≠ kbNoWaiter → kbd.hasChar = false

/-- A record stays, or is cleared and its process no longer BLOCKED; nothing
is said about the process `self`. -/
def Cleared (self : Nat) (k : Kernel) (none before after : Nat) : Prop :=
  after = before ∨ (after = none ∧
    (before < maxProcs → before ≠ self → k.state before ≠ .blocked))

/-- What the process `cur` does to the records before it records itself. -/
structure Relays (cur : Nat) (k k' : Kernel) : Prop where
  blocked : ∀ pid, pid ≠ cur → k'.state pid = .blocked →
    k.state pid = .blocked
  key : Cleared cur k' kbNoWaiter k.keyboard.waiterPid k'.keyboard.waiterPid
  keyboard : k.keyboard.Justified → k'.keyboard.Justified
  next : k.store.next ≤ k'.store.next
  room : PipeRoom k.store → PipeRoom k'.store
  slot : PipeRoom k.store → ∀ p isWrite, Cleared cur k' pipeNoWaiter
    ((k.store.pipes p).waiter isWrite) ((k'.store.pipes p).waiter isWrite)
  pipe : PipeRoom k.store → ∀ p, (k.store.pipes p).Justified →
    (k'.store.pipes p).Justified

section Relaying

variable {self : Nat} {k k' k'' : Kernel}

theorem Cleared.trans {none first second third : Nat}
    (hblocked : ∀ pid, pid ≠ self → k'.state pid = .blocked →
      k.state pid = .blocked)
    (hfirst : Cleared self k none first second)
    (hsecond : Cleared self k' none second third) :
    Cleared self k' none first third := by
  rcases hfirst with rfl | ⟨rfl, hwoken⟩
  · exact hsecond
  · refine .inr ⟨?_, fun hrange hne h => hwoken hrange hne (hblocked _ hne h)⟩
    rcases hsecond with hsame | ⟨hnone, -⟩
    · exact hsame
    · exact hnone

theorem Relays.trans (hfirst : Relays self k k') (hsecond : Relays self k' k'') :
    Relays self k k'' where
  blocked := fun pid hne h =>
    hfirst.blocked pid hne (hsecond.blocked pid hne h)
  key := hfirst.key.trans hsecond.blocked hsecond.key
  keyboard := fun h => hsecond.keyboard (hfirst.keyboard h)
  next := hfirst.next.trans hsecond.next
  room := fun h => hsecond.room (hfirst.room h)
  slot := fun h p isWrite => (hfirst.slot h p isWrite).trans hsecond.blocked
    (hsecond.slot (hfirst.room h) p isWrite)
  pipe := fun h p hjust =>
    hsecond.pipe (hfirst.room h) p (hfirst.pipe h p hjust)

/-- The store may change away from the pipes. -/
theorem Relays.of_aside
    (hblocked : ∀ pid, pid ≠ self → k'.state pid = .blocked →
      k.state pid = .blocked)
    (hkeyboard : k'.keyboard = k.keyboard) (hstore : Aside k.store k'.store) :
    Relays self k k' where
  blocked := hblocked
  key := .inl (congrArg Keyboard.waiterPid hkeyboard)
  keyboard := fun h => hkeyboard ▸ h
  next := hstore.next
  room := (hstore.passes []).room
  slot := fun _ p isWrite => .inl (by rw [hstore.pipes])
  pipe := fun _ p h => by rwa [hstore.pipes]

theorem Relays.refl (self : Nat) (k : Kernel) : Relays self k k :=
  .of_aside (fun _ _ => id) rfl (.refl _)

theorem Relays.setStore {store : Store} (haside : Aside k.store store) :
    Relays self k (k.setStore store) := .of_aside (fun _ _ => id) rfl haside

theorem Relays.setPcb {pid : Nat} {pcb : Pcb}
    (hstate : pid ≠ self → pcb.state = .blocked → k.state pid = .blocked) :
    Relays self k (k.setPcb pid pcb) := by
  refine .of_aside ?_ rfl (.refl _)
  exact forall_setPcb (P := fun other new => other ≠ self →
    new.state = .blocked → k.state other = .blocked) hstate fun _ _ _ => id

theorem Relays.setPcb_awake {pid : Nat} {pcb : Pcb}
    (hstate : pcb.state ≠ .blocked) : Relays self k (k.setPcb pid pcb) :=
  .setPcb fun _ h => absurd h hstate

theorem keyboard_schedAdd (k : Kernel) (pid : Nat) :
    (schedAdd k pid).keyboard = k.keyboard := by
  unfold schedAdd
  split_ifs <;> rfl

theorem keyboard_procWake (k : Kernel) (pid : Nat) :
    (procWake k pid).keyboard = k.keyboard := by
  unfold procWake
  split_ifs
  · rfl
  · exact keyboard_schedAdd _ pid

theorem keyboard_wakeAll (k : Kernel) (pids : List Nat) :
    (wakeAll k pids).keyboard = k.keyboard := by
  induction pids generalizing k with
  | nil => rfl
  | cons pid rest ih =>
      rw [wakeAll]
      split
      · exact ih k
      · exact (ih _).trans (keyboard_procWake k _)

theorem Stirs.blocked (hstirs : Stirs k k') (pid : Nat)
    (hblocked : k'.state pid = .blocked) : k.state pid = .blocked := by
  rcases hstirs.state pid with hsame | ⟨hold, -⟩
  · exact hsame ▸ hblocked
  · exact hold

/-- Whoever is in the list has been woken. -/
theorem wakeAll_unblocks (k : Kernel) {pids : List Nat} {pid : Nat}
    (hmem : pid ∈ pids) (hrange : pid < maxProcs) :
    (wakeAll k pids).state pid ≠ .blocked := by
  induction pids generalizing k with
  | nil => cases hmem
  | cons first rest ih =>
      rw [wakeAll]
      have hlater : ∀ j : Kernel, j.state pid ≠ .blocked →
          (wakeAll j rest).state pid ≠ .blocked :=
        fun j => mt ((wakeAll_calm j rest).toStirs.blocked pid)
      rcases List.mem_cons.mp hmem with rfl | hrest
      · cases hget : procGet k pid with
        | none =>
            apply hlater
            unfold procGet at hget
            rw [if_neg (Nat.not_le.mpr hrange)] at hget
            split_ifs at hget with hunused
            rw [hunused]
            decide
        | some found =>
            obtain ⟨rfl, -, -⟩ := procGet_eq_some hget
            exact hlater _ (procWake_state k found)
      · split
        · exact ih k hrest
        · exact ih _ hrest

/-- A change of the store together with the wake-ups that go with it. -/
theorem wakeAll_relays {j : Kernel} {woken : List Nat}
    (hblocked : ∀ pid, pid ≠ self → j.state pid = .blocked →
      k.state pid = .blocked)
    (hkeyboard : j.keyboard = k.keyboard)
    (hpasses : Passes k.store woken j.store) : Relays self k (wakeAll j woken) where
  blocked := fun pid hne h =>
    hblocked pid hne ((wakeAll_calm j woken).toStirs.blocked pid h)
  key := .inl (congrArg Keyboard.waiterPid
    ((keyboard_wakeAll j woken).trans hkeyboard))
  keyboard := fun h => by rwa [keyboard_wakeAll, hkeyboard]
  next := by
    rw [wakeAll_store]
    exact hpasses.next
  room := by
    rw [wakeAll_store]
    exact hpasses.room
  slot := by
    intro hroom p isWrite
    rw [wakeAll_store]
    rcases (hpasses.move hroom p).slot isWrite with hsame | ⟨hnone, hmem⟩
    · exact .inl hsame
    · exact .inr ⟨hnone, fun hrange _ => wakeAll_unblocks j hmem hrange⟩
  pipe := by
    intro hroom p hjust
    rw [wakeAll_store]
    exact (hpasses.move hroom p).justified hjust

theorem withTable_relays {result : List Nat × Store × FdTable} (pid : Nat)
    (hpasses : Passes k.store result.1 result.2.1) :
    Relays self k (withTable k pid result) := by
  refine wakeAll_relays ?_ rfl hpasses
  exact forall_setPcb (P := fun other new => other ≠ self →
    new.state = .blocked → k.state other = .blocked) (fun _ => id)
    fun _ _ _ => id

theorem closeFiles_relays (k : Kernel) (pid : Nat) :
    Relays self k (closeFiles k pid) :=
  withTable_relays pid (fdCloseList_passes _ _ _)

theorem shareFiles_relays (k : Kernel) (parent child : Nat) :
    Relays self k (shareFiles k parent child) :=
  withTable_relays child ((fdShareList_aside _ _ _ _).passes [])

theorem schedAdd_relays (k : Kernel) (pid : Nat) : Relays self k (schedAdd k pid) := by
  have hstill := schedAdd_still k pid
  refine .of_aside (fun other _ => hstill.calm.toStirs.blocked other)
    (keyboard_schedAdd k pid) ?_
  rw [hstill.store]
  exact .refl _

theorem procInitFrame_relays (k : Kernel) (pid entry : Nat) :
    Relays self k (procInitFrame k pid entry) := by
  unfold procInitFrame
  split_ifs
  · exact .refl self k
  · exact .setPcb fun _ => id

theorem pidFree_relays (k : Kernel) (pid : Nat) : Relays self k (pidFree k pid) := by
  unfold pidFree
  split_ifs <;> exact .of_aside (fun _ _ => id) rfl (.refl _)

theorem procCreate_relays (k : Kernel) (priority : Nat) :
    Relays self k (procCreate k priority).2 := by
  have halloc : Relays self k (pidAlloc k).2 := by
    unfold pidAlloc
    split <;> exact .of_aside (fun _ _ => id) rfl (.refl _)
  unfold procCreate
  split
  · rename_i heq
    rw [heq] at halloc
    exact halloc
  rename_i pid k₁ heq
  rw [heq] at halloc
  split_ifs
  · exact halloc.trans (pidFree_relays k₁ pid)
  have hmalloc := (kmalloc_adds k₁.store .kstack).aside
  split
  · rename_i heq'
    rw [heq'] at hmalloc
    exact halloc.trans ((Relays.setStore hmalloc).trans (pidFree_relays _ pid))
  · rename_i heq'
    rw [heq'] at hmalloc
    exact halloc.trans ((Relays.setStore (hmalloc.trans
      (fdTableInit_aside _))).trans (.setPcb_awake ProcState.noConfusion))

theorem adoptChild_relays (k : Kernel) (parent child : Nat) :
    Relays self k (adoptChild k parent child) := by
  refine Relays.trans (Relays.setPcb ?_) ((closeFiles_relays _ child).trans
    (shareFiles_relays _ parent child))
  exact fun _ => id

theorem procFork_relays {parent entry : Nat} {result : Option Nat × Kernel}
    (hfork : procFork k parent entry = some result) :
    Relays self k result.2 := by
  have hcreate := @procCreate_relays self k (k.procs parent).priority
  unfold procFork at hfork
  split at hfork
  · rename_i heq
    rw [heq] at hcreate
    rw [← Option.some.inj hfork]
    exact hcreate
  · rename_i child k₁ heq
    rw [heq] at hcreate
    obtain ⟨k₂, hready, rfl⟩ := Option.map_eq_some_iff.mp hfork
    obtain ⟨-, rfl⟩ := procSetReady_eq_some hready
    exact hcreate.trans ((adoptChild_relays _ parent child).trans
      ((procInitFrame_relays _ child entry).trans
        ((Relays.setPcb_awake ProcState.noConfusion).trans
          (schedAdd_relays _ child))))

theorem procDestroy_relays {pid : Nat} (hgone : procDestroy k pid = some k') :
    Relays self k k' := by
  unfold procDestroy at hgone
  split_ifs at hgone
  rw [← Option.some.inj hgone]
  exact (Relays.setStore (kfreeOption_adds _ _).aside).trans
    ((closeFiles_relays _ pid).trans
      ((pidFree_relays _ _).trans (.setPcb_awake ProcState.noConfusion)))

theorem schedRemove_relays (k : Kernel) (pid : Nat) :
    Relays self k (schedRemove k pid) :=
  .of_aside (fun _ _ => id) rfl (.refl _)

theorem procExec_relays (k : Kernel) (pid entry : Nat) :
    Relays self k (procExec k pid entry).2 := by
  unfold procExec
  split_ifs
  · exact .refl self k
  · exact (schedRemove_relays k pid).trans ((procInitFrame_relays _ pid entry).trans
      ((Relays.setPcb_awake ProcState.noConfusion).trans (schedAdd_relays _ pid)))

theorem readDone_relays (k : Kernel) (f : Ref) (n : Int) :
    Relays self k (readDone k f n) := by
  obtain ⟨store, heq, htransfers⟩ := readDone_transfers k f n
  exact heq ▸ .setStore htransfers.aside

theorem writeDone_relays (k : Kernel) (f : Ref) (n : Int) :
    Relays self k (writeDone k f n) := by
  obtain ⟨store, heq, htransfers⟩ := writeDone_transfers k f n
  exact heq ▸ .setStore htransfers.aside

theorem procWake_relays (k : Kernel) (pid : Nat) : Relays self k (procWake k pid) := by
  unfold procWake
  split_ifs
  · exact .refl self k
  · exact (Relays.setPcb_awake ProcState.noConfusion).trans (schedAdd_relays _ pid)

theorem tickScan_relays (k : Kernel) (pids : List Nat) :
    Relays self k (tickScan k pids) := by
  induction pids generalizing k with
  | nil => exact .refl self k
  | cons pid rest ih =>
      rw [tickScan]
      split_ifs
      · exact (procWake_relays k pid).trans (ih _)
      · exact ih k

theorem timerHandler_relays (k : Kernel) : Relays self k (timerHandler k) := by
  have hticks : Relays self k { k with
      tickCount := MachineInt.u32 (k.tickCount + 1), tickFlag := true } :=
    .of_aside (fun _ _ => id) rfl (.refl _)
  exact hticks.trans (tickScan_relays _ _)

theorem wakeParent_relays (k : Kernel) (pid : Nat) :
    Relays self k (wakeParent k pid) := by
  unfold wakeParent
  dsimp only
  split_ifs
  · exact .refl self k
  split
  · exact .refl self k
  split_ifs
  · exact procWake_relays k _
  · exact .refl self k

theorem procExit_relays (k : Kernel) (pid : Nat) (code : Int) :
    Relays self k (procExit k pid code) :=
  (Relays.setPcb_awake ProcState.noConfusion).trans
    ((wakeParent_relays _ pid).trans (schedRemove_relays _ pid))

theorem blockSelf_relays (k : Kernel) (self : Nat) :
    Relays self k (blockSelf k self) :=
  (Relays.setPcb fun h => absurd rfl h).trans (schedRemove_relays _ self)

end Relaying

section Keyboards

variable {self : Nat} {k : Kernel}

/-- The keyboard changes and nobody has to be woken. -/
theorem Relays.setKeyboard {kbd : Keyboard}
    (hwaiter : kbd.waiterPid = k.keyboard.waiterPid)
    (hjust : k.keyboard.Justified → kbd.Justified) :
    Relays self k { k with keyboard := kbd } where
  blocked := fun _ _ => id
  key := .inl hwaiter
  keyboard := hjust
  next := Nat.le_refl _
  room := id
  slot := fun _ _ _ => .inl rfl
  pipe := fun _ _ => id

theorem take_waiterPid (len : Nat) (kbd : Keyboard) :
    (kbd.take len).2.waiterPid = kbd.waiterPid := by
  induction len generalizing kbd with
  | zero => rfl
  | succ len ih =>
      rw [Keyboard.take]
      split_ifs
      · exact ih _
      · rfl

/-- Whoever finds characters finds nobody recorded. -/
theorem take_relays {len : Nat} (hchar : k.keyboard.hasChar = true) :
    Relays self k { k with keyboard := (k.keyboard.take len).2 } := by
  refine .setKeyboard (take_waiterPid len _) fun hjust hwaiter => ?_
  rw [take_waiterPid] at hwaiter
  have hnone := hjust hwaiter
  rw [hchar] at hnone
  cases hnone

/-- What the driver does to its record. -/
theorem keyboardHandler_cases (kbd : Keyboard) (scancode : UInt8) :
    ((keyboardHandler kbd scancode).1 = [] ∧
      (keyboardHandler kbd scancode).2.waiterPid = kbd.waiterPid ∧
      (kbd.Justified → (keyboardHandler kbd scancode).2.Justified)) ∨
    ((keyboardHandler kbd scancode).1 = [kbd.waiterPid] ∧
      (keyboardHandler kbd scancode).2.waiterPid = kbNoWaiter) := by
  have hpush : ∀ c, (kbd.push c).waiterPid = kbd.waiterPid := by
    intro c
    unfold Keyboard.push
    dsimp only
    split_ifs <;> rfl
  unfold keyboardHandler
  dsimp only
  split_ifs with hshift hcaps hup hchar hnone
  · exact .inl ⟨rfl, rfl, id⟩
  · exact .inl ⟨rfl, rfl, id⟩
  · exact .inl ⟨rfl, rfl, id⟩
  · exact .inl ⟨rfl, rfl, id⟩
  · exact .inl ⟨rfl, hpush _, fun _ h => absurd hnone h⟩
  · exact .inr ⟨by rw [hpush], rfl⟩

theorem keyHandler_relays (k : Kernel) (scancode : UInt8) :
    Relays self k (keyHandler k scancode) := by
  have hblocked : ∀ pid, (keyHandler k scancode).state pid = .blocked →
      k.state pid = .blocked := (keyHandler_calm k scancode).toStirs.blocked
  have hkeyboard : (keyHandler k scancode).keyboard =
      (keyboardHandler k.keyboard scancode).2 := keyboard_wakeAll _ _
  have hstore : (keyHandler k scancode).store = k.store := wakeAll_store _ _
  rcases keyboardHandler_cases k.keyboard scancode with
    ⟨hwoken, hwaiter, hjust⟩ | ⟨hwoken, hwaiter⟩
  · rw [keyHandler, hwoken]
    exact .setKeyboard hwaiter hjust
  · refine ⟨fun pid _ => hblocked pid, ?_, ?_, ?_, ?_, ?_, ?_⟩
    · refine .inr ⟨by rw [hkeyboard, hwaiter], fun hrange _ => ?_⟩
      rw [keyHandler, hwoken]
      exact wakeAll_unblocks _ (List.mem_singleton.mpr rfl) hrange
    · rw [hkeyboard]
      exact fun _ h => absurd hwaiter h
    · rw [hstore]
    · rw [hstore]
      exact id
    · rw [hstore]
      exact fun _ _ _ => .inl rfl
    · rw [hstore]
      exact fun _ _ => id

end Keyboards

/-- A pipe operation that sleeps has bytes left to move. -/
def Cont.Fit (store : Store) : Cont → Prop
  | .pipeRead _ p len moved => p < store.next ∧ moved < len
  | .pipeWrite _ p len moved => p < store.next ∧ moved < len
  | _ => True

/-- How the segment ends: with a return, with a sleep that is recorded, or
with another one. -/
inductive Falls (cur : Nat) (k : Kernel) : Outcome → Kernel → Prop where
  | returns (value : Int) (reply : Reply) : Falls cur k (.ret value reply) k
  | onPipe {cont : Cont} {p : Ref} {isWrite : Bool}
      (hcont : cont.pipeEnd = some (p, isWrite)) (hfit : cont.Fit k.store)
      (hwait : (k.store.pipes p).MustWait isWrite) :
      Falls cur k (.yield cont) (k.setStore (k.store.setPipe p
        (pipeBlock (k.store.pipes p) isWrite (k.procs cur).pid)))
  | atKeyboard (f : Ref) (len : Nat) (hnone : k.keyboard.hasChar = false) :
      Falls cur k (.yield (.kbdRead f len)) { k with keyboard :=
        { k.keyboard with waiterPid := (k.procs cur).pid } }
  | elsewhere {cont : Cont} (hpipe : cont.pipeEnd = none)
      (hkey : cont.atKeyboard = false) : Falls cur k (.yield cont) k

/-- A segment of the process `cur`. -/
def Goes (cur : Nat) (k : Kernel) (outcome : Outcome) (k' : Kernel) : Prop :=
  ∃ j, Relays cur k j ∧ Falls cur j outcome k'

section Segments

variable {self : Nat} {k k' : Kernel} {outcome : Outcome}

theorem Relays.returns (hrelays : Relays self k k') (value : Int)
    (reply : Reply) : Goes self k (.ret value reply) k' :=
  ⟨k', hrelays, .returns value reply⟩

theorem Relays.then_goes {k₁ : Kernel} (hrelays : Relays self k k₁)
    (hgoes : Goes self k₁ outcome k') : Goes self k outcome k' := by
  obtain ⟨j, hfirst, hfalls⟩ := hgoes
  exact ⟨j, hrelays.trans hfirst, hfalls⟩

theorem pipeDone_relays (isWrite : Bool) (k : Kernel) (f : Ref) (n : Int) :
    Relays self k (pipeDone isWrite k f n) := by
  cases isWrite
  · exact readDone_relays k f n
  · exact writeDone_relays k f n

section Pipes

variable {cause : Cause} {k₀ : Kernel} {f p : Ref} {isWrite : Bool} {len : Nat}
  {segment : PipeExit × PipeCall}

/-- A segment of a pipe transfer that has to stop has bytes left to move. -/
theorem PipeMoves.relays (hmoves : PipeMoves k cause k₀ f p isWrite len segment)
    (hroom : PipeRoom k.store)
    (hfit : ∀ cont, cause = .resume cont → cont.Fit k.store) :
    Relays self k (pipeMoved k₀ p segment.2) ∧ p < k₀.store.next ∧
      (segment.1 = .block →
        segment.2.pipe.MustWait isWrite ∧ segment.2.moved < len) := by
  have hmoved {moved : Nat} (hseek : Relays self k k₀) (hp : p < k₀.store.next)
      (hmove : CallMove (PipeCall.enter (k₀.store.pipes p) moved) segment.2) :
      Relays self k (pipeMoved k₀ p segment.2) := by
    obtain ⟨woken, hwoken, hpipe⟩ := hmove
    rw [pipeMoved, hwoken]
    exact hseek.trans (wakeAll_relays (fun _ _ => id) rfl
      (setPipe_passes (fun _ => hp) hpipe))
  have hread (hends : ReadEnds len segment) (hexit : segment.1 = .block) :
      segment.2.pipe.MustWait false ∧ segment.2.moved < len := by
    rw [ReadEnds, hexit] at hends
    exact hends.symm
  have hwrite (hends : WriteEnds len segment) (hexit : segment.1 = .block) :
      segment.2.pipe.MustWait true ∧ segment.2.moved < len := by
    rw [WriteEnds, hexit] at hends
    exact hends.symm
  cases hmoves with
  | read =>
      obtain ⟨hmove, hends⟩ := pipeReadLoop_move (pipeFuel len 0)
        (show (PipeCall.enter _ 0).moved ≤ len from Nat.zero_le len)
      exact ⟨hmoved (.refl self k) (hroom.ends _) hmove, hroom.ends _,
        hread hends⟩
  | readOn _ _ _ moved =>
      obtain ⟨hp, hmore⟩ := hfit _ rfl
      obtain ⟨hmove, hends⟩ := pipeReadLoop_move (pipeFuel len moved)
        (show (PipeCall.enter _ moved).moved ≤ len from hmore.le)
      exact ⟨hmoved (.refl self k) hp hmove, hp, hread hends⟩
  | write _ _ src _ hpipe =>
      have hseek : Relays self k (k.setStore (seekAppend k.store f)) :=
        .setStore (seekAppend_transfers _ f).aside
      have hp : p < (k.setStore (seekAppend k.store f)).store.next := by
        rw [hpipe]
        exact (hseek.room hroom).ends _
      obtain ⟨hmove, hends⟩ := pipeWriteLoop_move src (pipeFuel len 0)
        (show (PipeCall.enter _ 0).moved ≤ len from Nat.zero_le len)
      exact ⟨hmoved hseek hp hmove, hp, hwrite hends⟩
  | writeOn _ _ src _ moved =>
      obtain ⟨hp, hmore⟩ := hfit _ rfl
      obtain ⟨hmove, hends⟩ := pipeWriteResume_move src
        (show (PipeCall.enter _ moved).moved < len from hmore)
      exact ⟨hmoved (.refl self k) hp hmove, hp, hwrite hends⟩

/-- The sleep in `pipe_block`. -/
theorem PipeMoves.sleeps_goes
    (hmoves : PipeMoves k cause k₀ f p isWrite len segment)
    (hexit : segment.1 = .block) (hroom : PipeRoom k.store)
    (hfit : ∀ cont, cause = .resume cont → cont.Fit k.store) :
    Goes self k (.yield (pipeCont isWrite f p len segment.2.moved))
      (blockSelf ((pipeMoved k₀ p segment.2).setStore
        ((pipeMoved k₀ p segment.2).store.setPipe p
          (pipeBlock segment.2.pipe isWrite
            ((pipeMoved k₀ p segment.2).procs self).pid))) self) := by
  obtain ⟨hmoved, hp, hblock⟩ := @PipeMoves.relays self _ _ _ _ _ _ _ _ hmoves
    hroom hfit
  obtain ⟨hwait, hmore⟩ := hblock hexit
  have hstore : (pipeMoved k₀ p segment.2).store =
      k₀.store.setPipe p segment.2.pipe := wakeAll_store _ _
  generalize pipeMoved k₀ p segment.2 = k₁ at hmoved hstore ⊢
  have hpipes : (blockSelf k₁ self).store.pipes p = segment.2.pipe := by
    change k₁.store.pipes p = _
    rw [hstore]
    exact Function.update_self _ _ _
  have hpid : ((blockSelf k₁ self).procs self).pid = (k₁.procs self).pid := by
    change ((k₁.setPcb self _).procs self).pid = _
    rw [procs_setPcb_self]
  have hnext : p < (blockSelf k₁ self).store.next := by
    change p < k₁.store.next
    rw [hstore]
    exact hp
  have hcont : (pipeCont isWrite f p len segment.2.moved).pipeEnd =
      some (p, isWrite) := by
    cases isWrite <;> rfl
  have hfits : (pipeCont isWrite f p len segment.2.moved).Fit
      (blockSelf k₁ self).store := by
    cases isWrite <;> exact ⟨hnext, hmore⟩
  refine ⟨blockSelf k₁ self, hmoved.trans (blockSelf_relays k₁ self), ?_⟩
  have hfalls := @Falls.onPipe self (blockSelf k₁ self) _ p isWrite hcont hfits
    (by rwa [hpipes])
  rw [hpipes, hpid] at hfalls
  exact hfalls

end Pipes

theorem Served.goes {cause : Cause} (hserved : Served self k cause outcome k')
    (hroom : PipeRoom k.store)
    (hfit : ∀ cont, cause = .resume cont → cont.Fit k.store) :
    Goes self k outcome k' := by
  have hseek (f : Ref) : Relays self k (k.setStore (seekAppend k.store f)) :=
    .setStore (seekAppend_transfers _ f).aside
  cases hserved with
  | returns => exact (Relays.refl self k).returns _ _
  | reads _ f n => exact (readDone_relays k f n).returns _ _
  | takes _ f _ n _ hchar =>
      exact ((take_relays hchar).trans (readDone_relays _ f n)).returns _ _
  | awaitsKey _ f len hnone =>
      exact ⟨_, blockSelf_relays k self, .atKeyboard f len hnone⟩
  | @stores _ f _ _ written hwrite =>
      have hset : Relays self (k.setStore (seekAppend k.store f))
          ((k.setStore (seekAppend k.store f)).setStore written.2) :=
        .setStore (ramfsWrite_transfers hwrite).aside
      exact ((hseek f).trans (hset.trans (writeDone_relays _ f _))).returns _ _
  | prints _ f n => exact ((hseek f).trans (writeDone_relays _ f n)).returns _ _
  | moves hmoves =>
      exact ((hmoves.relays hroom hfit).1.trans
        (pipeDone_relays _ _ _ _)).returns _ _
  | awaitsPipe hmoves hexit => exact hmoves.sleeps_goes hexit hroom hfit
  | sleeps =>
      exact ⟨_, (Relays.setPcb fun h => absurd rfl h).trans
        (blockSelf_relays _ self), .elsewhere rfl rfl⟩
  | exits code => exact ⟨_, procExit_relays k self code, .elsewhere rfl rfl⟩
  | forks _ hfork => exact (procFork_relays hfork).returns _ _
  | execs => exact (procExec_relays k _ _).returns _ _
  | @opensNot path flags _ hopen =>
      have haside := vfsOpen_aside k.store path flags
      rw [hopen] at haside
      exact (Relays.setStore haside).returns _ _
  | @opensFull path flags f store hopen =>
      have haside := vfsOpen_aside k.store path flags
      rw [hopen] at haside
      have hclose : Relays self k
          (wakeAll (k.setStore (vfsClose store f).2) (vfsClose store f).1) :=
        wakeAll_relays (fun _ _ => id) rfl
          (haside.then_passes (vfsClose_passes store f))
      exact hclose.returns _ _
  | @opens path flags _ _ _ _ hopen =>
      have haside := vfsOpen_aside k.store path flags
      rw [hopen] at haside
      exact (withTable_relays self (haside.passes [])).returns _ _
  | closes => exact (withTable_relays self (fdClose_passes _ _ _)).returns _ _
  | pipes _ _ htable =>
      rw [htable]
      exact (withTable_relays self (pipeCreate_passes _ _)).returns _ _
  | dups _ _ _ hclose =>
      rw [← hclose]
      exact ((withTable_relays self (fdClose_passes _ _ _)).trans
        (withTable_relays self ((setFile_aside _ _ _).passes []))).returns _ _
  | reaps _ _ _ hdestroy => exact (procDestroy_relays hdestroy).returns _ _
  | waits =>
      exact ⟨_, (Relays.setPcb fun h => absurd rfl h).trans
        (blockSelf_relays _ self), .elsewhere rfl rfl⟩

/-- What any segment does to the records. -/
theorem handler_goes {event : Event} (hroom : PipeRoom k.store)
    (hfit : ∀ cont, k.resume = some cont → cont.Fit k.store)
    (hcurrent : k.currentProc = some self)
    (hhandler : k.handler event = some (outcome, k')) :
    Goes self k outcome k' := by
  obtain ⟨cur, hcur, hhandles⟩ := handler_handles hhandler
  obtain rfl := Option.some.inj (hcurrent.symm.trans hcur)
  cases hhandles with
  | timer => exact (timerHandler_relays k).returns _ _
  | key scancode => exact (keyHandler_relays k scancode).returns _ _
  | call _ hcall => exact (syscallDispatch_served hcall).goes hroom nofun
  | @resume _ cont _ _ hresume hcall =>
      have hset : Relays self k (resumed k self cont) := by
        cases cont with
        | wait => exact Relays.setPcb fun h => absurd rfl h
        | _ => exact .refl self k
      refine hset.then_goes ((resumeCall_served hcall).goes (hset.room hroom) ?_)
      rintro _ ⟨⟩
      have hfits := hfit cont hresume
      cases cont <;> exact hfits

end Segments

end Orion
