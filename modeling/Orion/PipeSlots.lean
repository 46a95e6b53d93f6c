/-
The waiter slots of the pipes.  A slot is filled by the process that goes to
sleep in `pipe_block` and cleared by `pipe_wake_peer`, which at the same time
wakes whoever is recorded; nothing else touches it.  While a process is
recorded there is a reason for it to sleep.
-/
import Orion.PipeFifo
import Orion.Sleepers

namespace Orion

/-- The process recorded on one end. -/
def Pipe.waiter (pipe : Pipe) (isWrite : Bool) : Nat :=
  if isWrite then pipe.blockedWriter else pipe.blockedReader

/-- A read finds nothing, but there is a writer left; a write finds no room,
but there is a reader left. -/
def Pipe.MustWait (pipe : Pipe) : Bool → Prop
  | false => pipe.count = 0 ∧ pipe.writers ≠ 0
  | true => pipe.count = pipeBufsz ∧ pipe.readers ≠ 0

structure Pipe.Justified (pipe : Pipe) : Prop where
  inRange : PipeInRange pipe
  reason : ∀ isWrite, pipe.waiter isWrite ≠ pipeNoWaiter → pipe.MustWait isWrite

/-- What can happen to a pipe in a segment that wakes `woken`, up to its own
sleep in `pipe_block`. -/
structure PipeMove (pipe : Pipe) (woken : List Nat) (pipe' : Pipe) : Prop where
  slot : ∀ isWrite, pipe'.waiter isWrite = pipe.waiter isWrite ∨
    (pipe'.waiter isWrite = pipeNoWaiter ∧ pipe.waiter isWrite ∈ woken)
  justified : pipe.Justified → pipe'.Justified

section Moves

variable {pipe pipe' pipe'' : Pipe} {woken : List Nat} {isWrite : Bool}

theorem PipeMove.refl (pipe : Pipe) (woken : List Nat) :
    PipeMove pipe woken pipe := ⟨fun _ => .inl rfl, id⟩

theorem PipeMove.trans {first second : List Nat}
    (hfirst : PipeMove pipe first pipe')
    (hsecond : PipeMove pipe' second pipe'') :
    PipeMove pipe (first ++ second) pipe'' := by
  refine ⟨fun isWrite => ?_, fun h => hsecond.justified (hfirst.justified h)⟩
  rcases hsecond.slot isWrite with hsame | ⟨hnone, hmem⟩
  · rcases hfirst.slot isWrite with hsame' | ⟨hnone, hmem⟩
    · exact .inl (hsame.trans hsame')
    · exact .inr ⟨hsame.trans hnone, List.mem_append_left _ hmem⟩
  · rcases hfirst.slot isWrite with hsame' | ⟨-, hmem'⟩
    · exact .inr ⟨hnone, List.mem_append_right _ (hsame' ▸ hmem)⟩
    · exact .inr ⟨hnone, List.mem_append_left _ hmem'⟩

@[simp] theorem pipeWakePeer_waiter (pipe : Pipe) (wokeByWrite isWrite : Bool) :
    (pipeWakePeer pipe wokeByWrite).2.waiter isWrite =
      if isWrite = !wokeByWrite then pipeNoWaiter else pipe.waiter isWrite := by
  unfold pipeWakePeer Pipe.waiter
  cases wokeByWrite with
  | false =>
      by_cases hpeer : pipe.blockedWriter = pipeNoWaiter <;>
        cases isWrite <;> simp [hpeer]
  | true =>
      by_cases hpeer : pipe.blockedReader = pipeNoWaiter <;>
        cases isWrite <;> simp [hpeer]

theorem pipeWakePeer_woken {wokeByWrite : Bool}
    (hwaiter : pipe.waiter (!wokeByWrite) ≠ pipeNoWaiter) :
    pipe.waiter (!wokeByWrite) ∈ (pipeWakePeer pipe wokeByWrite).1 := by
  unfold pipeWakePeer
  unfold Pipe.waiter at hwaiter ⊢
  cases wokeByWrite <;> simp_all

theorem pipeWakePeer_mustWait (pipe : Pipe) (wokeByWrite isWrite : Bool) :
    (pipeWakePeer pipe wokeByWrite).2.MustWait isWrite ↔
      pipe.MustWait isWrite := by
  unfold pipeWakePeer
  dsimp only
  cases isWrite <;> split_ifs <;> rfl

/-- Waking the peer after a change that can only end its own sleep. -/
theorem pipeWakePeer_move {wokeByWrite : Bool}
    (hslots : ∀ isWrite, pipe'.waiter isWrite = pipe.waiter isWrite)
    (hrange : PipeInRange pipe →
      PipeInRange (pipeWakePeer pipe' wokeByWrite).2)
    (hkeep : pipe.Justified → pipe.waiter wokeByWrite ≠ pipeNoWaiter →
      pipe'.MustWait wokeByWrite) :
    PipeMove pipe (pipeWakePeer pipe' wokeByWrite).1
      (pipeWakePeer pipe' wokeByWrite).2 := by
  refine ⟨fun isWrite => ?_, fun hjust => ⟨hrange hjust.inRange, ?_⟩⟩
  · rw [pipeWakePeer_waiter]
    split_ifs with hpeer
    · subst hpeer
      by_cases hwaiter : pipe'.waiter (!wokeByWrite) = pipeNoWaiter
      · exact .inl (hwaiter.symm.trans (hslots _))
      · refine .inr ⟨rfl, ?_⟩
        rw [← hslots]
        exact pipeWakePeer_woken hwaiter
    · exact .inl (hslots isWrite)
  · intro isWrite hwaiter
    rw [pipeWakePeer_waiter] at hwaiter
    split_ifs at hwaiter with hpeer
    · exact absurd rfl hwaiter
    · obtain rfl : isWrite = wokeByWrite := by
        cases isWrite <;> cases wokeByWrite <;> simp_all
      rw [hslots] at hwaiter
      rw [pipeWakePeer_mustWait]
      exact hkeep hjust hwaiter

end Moves

/-- The rest of a call: more wake-ups, and what they did to the pipe. -/
def CallMove (call call' : PipeCall) : Prop :=
  ∃ woken, call'.woken = call.woken ++ woken ∧
    PipeMove call.pipe woken call'.pipe

section Calls

variable {call : PipeCall} {len : Nat}

theorem CallMove.refl (call : PipeCall) : CallMove call call :=
  ⟨[], (List.append_nil _).symm, .refl _ _⟩

theorem CallMove.trans {call' call'' : PipeCall} (hfirst : CallMove call call')
    (hsecond : CallMove call' call'') : CallMove call call'' := by
  obtain ⟨woken, hwoken, hmove⟩ := hfirst
  obtain ⟨woken', hwoken', hmove'⟩ := hsecond
  refine ⟨woken ++ woken', ?_, hmove.trans hmove'⟩
  rw [hwoken', hwoken, List.append_assoc]

theorem readBatch_move {batch : Nat} (hcount : call.pipe.count ≠ 0)
    (hbatch : batch ≤ call.pipe.count) :
    CallMove call (readBatch call batch) := by
  refine ⟨_, rfl, pipeWakePeer_move (fun isWrite => ?_)
    (fun hrange => (readBatch_delivers hrange hbatch).inRange) ?_⟩
  · cases isWrite <;> rfl
  · intro hjust hwaiter
    exact absurd (hjust.reason false hwaiter).1 hcount

theorem writeBatch_move (src : Nat → UInt8)
    (hcount : call.pipe.count ≠ pipeBufsz) :
    CallMove call (writeBatch len src call) := by
  refine ⟨_, rfl, pipeWakePeer_move (fun isWrite => ?_)
    (fun hrange => (writeBatch_appends len src hrange).inRange) ?_⟩
  · cases isWrite <;> rfl
  · intro hjust hwaiter
    exact absurd (hjust.reason true hwaiter).1 hcount

/-- How a segment of a read of `len` bytes can end. -/
def ReadEnds (len : Nat) (segment : PipeExit × PipeCall) : Prop :=
  match segment.1 with
  | .done value => value = MachineInt.i32 segment.2.moved ∧
      (segment.2.moved = len ∨ (segment.2.moved < len ∧
        segment.2.pipe.count = 0 ∧ segment.2.pipe.writers = 0))
  | .block => segment.2.moved < len ∧ segment.2.pipe.MustWait false
  | .endless => True

theorem pipeReadLoop_move (fuel : Nat) (hmoved : call.moved ≤ len) :
    CallMove call (pipeReadLoop len fuel call).2 ∧
      ReadEnds len (pipeReadLoop len fuel call) := by
  induction fuel generalizing call with
  | zero => exact ⟨.refl call, trivial⟩
  | succ fuel ih =>
      rw [pipeReadLoop]
      split_ifs with hmore hempty heof
      · exact ⟨.refl call, rfl, .inr ⟨hmore, hempty, heof⟩⟩
      · exact ⟨.refl call, hmore, hempty, heof⟩
      · have hbatch : (readBatch call (min (len - call.moved)
            call.pipe.count)).moved ≤ len := by
          simp only [readBatch]
          omega
        obtain ⟨hmove, hends⟩ := ih hbatch
        exact ⟨(readBatch_move hempty (Nat.min_le_right _ _)).trans hmove, hends⟩
      · have hall : call.moved = len :=
          hmoved.antisymm (Nat.le_of_not_lt hmore)
        exact ⟨.refl call, rfl, .inl hall⟩

/-- How a segment of a write of `len` bytes can end. -/
def WriteEnds (len : Nat) (segment : PipeExit × PipeCall) : Prop :=
  match segment.1 with
  | .done value => value = MachineInt.i32 len ∨ value = -1
  | .block => segment.2.moved < len ∧ segment.2.pipe.MustWait true
  | .endless => True

theorem writeBatch_moved (src : Nat → UInt8) (hmoved : call.moved ≤ len) :
    (writeBatch len src call).moved ≤ len := by
  simp only [writeBatch]
  omega

theorem pipeWriteLoop_move (src : Nat → UInt8) (fuel : Nat)
    (hmoved : call.moved ≤ len) :
    CallMove call (pipeWriteLoop len src fuel call).2 ∧
      WriteEnds len (pipeWriteLoop len src fuel call) := by
  induction fuel generalizing call with
  | zero => exact ⟨.refl call, trivial⟩
  | succ fuel ih =>
      rw [pipeWriteLoop]
      split_ifs with hmore hbroken hfull
      · exact ⟨.refl call, .inr rfl⟩
      · exact ⟨.refl call, hmore, hfull, hbroken⟩
      · obtain ⟨hmove, hends⟩ := ih (writeBatch_moved src hmoved)
        exact ⟨(writeBatch_move src hfull).trans hmove, hends⟩
      · have hall : call.moved = len :=
          hmoved.antisymm (Nat.le_of_not_lt hmore)
        exact ⟨.refl call, .inl (congrArg _ hall)⟩

theorem pipeWriteResume_move (src : Nat → UInt8) (hmoved : call.moved < len) :
    CallMove call (pipeWriteResume len src call).2 ∧
      WriteEnds len (pipeWriteResume len src call) := by
  rw [pipeWriteResume]
  split_ifs with hfull hbroken
  · exact ⟨.refl call, .inr rfl⟩
  · exact ⟨.refl call, hmoved, hfull, hbroken⟩
  · obtain ⟨hmove, hends⟩ := pipeWriteLoop_move src
      (pipeFuel len (writeBatch len src call).moved)
      (writeBatch_moved src hmoved.le)
    exact ⟨(writeBatch_move src hfull).trans hmove, hends⟩

theorem pipeCloseReadEnd_move (pipe : Pipe) :
    PipeMove pipe (pipeCloseReadEnd pipe).1 (pipeCloseReadEnd pipe).2 := by
  unfold pipeCloseReadEnd
  dsimp only
  split_ifs with hlast
  · refine pipeWakePeer_move (fun isWrite => ?_) (fun hrange => ?_) ?_
    · cases isWrite <;> rfl
    · apply PipeInRange.wakePeer
      exact ⟨hrange.head_lt, hrange.count_le⟩
    · exact fun hjust hwaiter => hjust.reason false hwaiter
  · refine ⟨fun isWrite => .inl (by cases isWrite <;> rfl), fun hjust =>
      ⟨⟨hjust.inRange.head_lt, hjust.inRange.count_le⟩, ?_⟩⟩
    intro isWrite hwaiter
    cases isWrite with
    | false => exact hjust.reason false hwaiter
    | true => exact ⟨(hjust.reason true hwaiter).1, hlast⟩

theorem pipeCloseWriteEnd_move (pipe : Pipe) :
    PipeMove pipe (pipeCloseWriteEnd pipe).1 (pipeCloseWriteEnd pipe).2 := by
  unfold pipeCloseWriteEnd
  dsimp only
  split_ifs with hlast
  · refine pipeWakePeer_move (fun isWrite => ?_) (fun hrange => ?_) ?_
    · cases isWrite <;> rfl
    · apply PipeInRange.wakePeer
      exact ⟨hrange.head_lt, hrange.count_le⟩
    · exact fun hjust hwaiter => hjust.reason true hwaiter
  · refine ⟨fun isWrite => .inl (by cases isWrite <;> rfl), fun hjust =>
      ⟨⟨hjust.inRange.head_lt, hjust.inRange.count_le⟩, ?_⟩⟩
    intro isWrite hwaiter
    cases isWrite with
    | false => exact ⟨(hjust.reason false hwaiter).1, hlast⟩
    | true => exact hjust.reason true hwaiter

end Calls

/-- Pipes are where references have been given out: the ends lead to old
references, and what has not been given out is as at the start. -/
structure PipeRoom (s : Store) : Prop where
  ends : ∀ e, (s.ends e).pipe < s.next
  unborn : ∀ p, s.next ≤ p → s.pipes p = Pipe.fresh

/-- Nothing happens to a pipe or to an end of one. -/
structure Aside (s s' : Store) : Prop where
  pipes : s'.pipes = s.pipes
  ends : s'.ends = s.ends
  next : s.next ≤ s'.next

/-- What a function of the file system that wakes `woken` does to the pipes. -/
structure Passes (s : Store) (woken : List Nat) (s' : Store) : Prop where
  next : s.next ≤ s'.next
  room : PipeRoom s → PipeRoom s'
  move : PipeRoom s → ∀ p, PipeMove (s.pipes p) woken (s'.pipes p)

section Stores

variable {s s' s'' : Store}

theorem Aside.refl (s : Store) : Aside s s := ⟨rfl, rfl, Nat.le_refl _⟩

theorem Aside.trans (hfirst : Aside s s') (hsecond : Aside s' s'') :
    Aside s s'' :=
  ⟨hsecond.pipes.trans hfirst.pipes, hsecond.ends.trans hfirst.ends,
    hfirst.next.trans hsecond.next⟩

theorem Aside.passes (haside : Aside s s') (woken : List Nat) :
    Passes s woken s' := by
  refine ⟨haside.next, fun hroom => ⟨?_, ?_⟩, fun _ => ?_⟩
  · rw [haside.ends]
    exact fun e => (hroom.ends e).trans_le haside.next
  · rw [haside.pipes]
    exact fun p hp => hroom.unborn p (haside.next.trans hp)
  · rw [haside.pipes]
    exact fun p => .refl _ _

theorem Passes.trans {first second : List Nat} (hfirst : Passes s first s')
    (hsecond : Passes s' second s'') : Passes s (first ++ second) s'' where
  next := hfirst.next.trans hsecond.next
  room := fun hroom => hsecond.room (hfirst.room hroom)
  move := fun hroom p =>
    (hfirst.move hroom p).trans (hsecond.move (hfirst.room hroom) p)

theorem Passes.then_passes {woken : List Nat} (hfirst : Passes s [] s')
    (hsecond : Passes s' woken s'') : Passes s woken s'' :=
  hfirst.trans hsecond

theorem Aside.then_passes {woken : List Nat} (haside : Aside s s')
    (hpasses : Passes s' woken s'') : Passes s woken s'' :=
  (haside.passes []).then_passes hpasses

theorem Passes.then_aside {woken : List Nat} (hpasses : Passes s woken s')
    (haside : Aside s' s'') : Passes s woken s'' := by
  have hboth := hpasses.trans (haside.passes [])
  rwa [List.append_nil] at hboth

/-- One pipe moves. -/
theorem setPipe_passes {p : Ref} {pipe : Pipe} {woken : List Nat}
    (hp : PipeRoom s → p < s.next) (hmove : PipeMove (s.pipes p) woken pipe) :
    Passes s woken (s.setPipe p pipe) := by
  refine ⟨Nat.le_refl _, fun hroom => ⟨hroom.ends, fun q hq => ?_⟩,
    fun _ q => ?_⟩
  · have hne : q ≠ p := fun h => absurd (hp hroom) (Nat.not_lt.mpr (h ▸ hq))
    exact (Function.update_of_ne hne _ _).trans (hroom.unborn q hq)
  · by_cases hq : q = p
    · subst hq
      simpa only [Store.setPipe, Function.update_self] using hmove
    · simpa only [Store.setPipe, Function.update_of_ne hq] using
        PipeMove.refl (s.pipes q) woken

theorem Adds.aside (hadds : Adds s s') : Aside s s' :=
  ⟨hadds.pipes, hadds.ends, hadds.next⟩

theorem kfree_aside (s : Store) (ref : Ref) : Aside s (s.kfree ref) :=
  ⟨rfl, rfl, Nat.le_refl _⟩

theorem setFile_aside (s : Store) (f : Ref) (file : File) :
    Aside s (s.setFile f file) := ⟨rfl, rfl, Nat.le_refl _⟩

theorem setVnode_aside (s : Store) (v : Ref) (vnode : Vnode) :
    Aside s (s.setVnode v vnode) := ⟨rfl, rfl, Nat.le_refl _⟩

theorem Transfers.aside {s' : Store} (htransfers : Transfers False s s') :
    Aside s s' := by
  refine htransfers.lift (.refl s) fun t t' hpast hstep => hpast.trans ?_
  cases hstep with
  | grow hgrow =>
      cases hgrow with
      | moved => exact ⟨rfl, rfl, Nat.le_succ _⟩
      | _ => exact ⟨rfl, rfl, Nat.le_refl _⟩
  | pipe hfalse => exact hfalse.elim
  | _ => exact ⟨rfl, rfl, Nat.le_refl _⟩

theorem vfsOpenVnode_aside (s : Store) (v : Option Ref) (flags : UInt32) :
    Aside s (vfsOpenVnode s v flags).2 := by
  cases v with
  | none => exact .refl s
  | some v =>
      have hopen : Aside s (backendOpen s v flags) := by
        unfold backendOpen
        split_ifs
        · have hopen := ramfsOpen_truncates s v flags
          generalize ramfsOpen s v flags = s₁ at hopen ⊢
          cases hopen <;> exact ⟨rfl, rfl, Nat.le_refl _⟩
        · exact .refl s
      rcases vfsOpenVnode_some s v flags with heq | ⟨offset, heq, -⟩
      · rw [heq]
        exact hopen.trans ⟨rfl, rfl, Nat.le_refl _⟩
      · rw [heq]
        exact hopen.trans ⟨rfl, rfl, Nat.le_succ _⟩

theorem vfsOpen_aside (s : Store) (path : List UInt8) (flags : UInt32) :
    Aside s (vfsOpen s path flags).2 := by
  unfold vfsOpen
  split
  · exact vfsOpenVnode_aside s _ flags
  split_ifs
  · exact .refl s
  split
  · exact .refl s
  · rename_i dir filename _
    have hcreate := (ramfsCreate_adds s dir filename .file).aside
    split
    · rename_i heq
      rw [heq] at hcreate
      exact hcreate
    · rename_i heq
      rw [heq] at hcreate
      exact hcreate.trans (vfsOpenVnode_aside _ _ flags)

theorem fdTableInit_aside (s : Store) : Aside s (fdTableInit s).1 :=
  (vfsOpenVnode_aside _ _ _).trans ((vfsOpenVnode_aside _ _ _).trans
    (vfsOpenVnode_aside _ _ _))

theorem fdShareList_aside (s : Store) (src dst : FdTable) (fds : List Nat) :
    Aside s (fdShareList s src dst fds).1 := by
  induction fds generalizing s dst with
  | nil => exact .refl s
  | cons fd rest ih =>
      rw [fdShareList]
      cases src fd with
      | none => exact ih s _
      | some f => exact (setFile_aside s f _).trans (ih _ _)

theorem pipeClose_passes (s : Store) (v : Ref)
    {closeEnd : Pipe → List Nat × Pipe}
    (hclose : ∀ pipe, PipeMove pipe (closeEnd pipe).1 (closeEnd pipe).2) :
    Passes s (pipeClose s v closeEnd).1 (pipeClose s v closeEnd).2 := by
  unfold pipeClose
  dsimp only
  split
  · exact (Aside.refl s).passes []
  · rename_i e _
    have hset : Passes s _ (s.setPipe (s.ends e).pipe _) :=
      setPipe_passes (fun hroom => hroom.ends e) (hclose _)
    have hfree : ∀ (s : Store) (p : Ref), Aside s (pipeMaybeFree s p) := by
      intro s p
      unfold pipeMaybeFree
      split_ifs
      · exact kfree_aside s p
      · exact .refl s
    exact hset.then_aside ((kfree_aside _ _).trans
      ((setVnode_aside _ _ _).trans ((hfree _ _).trans (kfree_aside _ _))))

theorem vfsClose_passes (s : Store) (f : Ref) :
    Passes s (vfsClose s f).1 (vfsClose s f).2 := by
  have hhandler : ∀ (s : Store) (v : Ref),
      Passes s (closeHandler s v).1 (closeHandler s v).2 := by
    intro s v
    unfold closeHandler
    split
    · exact pipeClose_passes s v pipeCloseReadEnd_move
    · exact pipeClose_passes s v pipeCloseWriteEnd_move
    · exact (Aside.refl s).passes []
  unfold vfsClose
  dsimp only
  split_ifs
  · exact (setFile_aside _ _ _).passes []
  · exact (setFile_aside _ _ _).then_passes ((hhandler _ _).then_aside
      ((setVnode_aside _ _ _).trans (kfree_aside _ _)))

theorem fdClose_passes (s : Store) (table : FdTable) (fd : Nat) :
    Passes s (fdClose s table fd).1 (fdClose s table fd).2.1 := by
  unfold fdClose
  split_ifs
  · exact (Aside.refl s).passes []
  split
  · exact (Aside.refl s).passes []
  · exact vfsClose_passes s _

theorem fdCloseList_passes (s : Store) (table : FdTable) (fds : List Nat) :
    Passes s (fdCloseList s table fds).1 (fdCloseList s table fds).2.1 := by
  induction fds generalizing s table with
  | nil => exact (Aside.refl s).passes []
  | cons fd rest ih => exact (fdClose_passes s table fd).trans (ih _ _)

end Stores

section Creation

variable {s s' : Store}

/-- A new pipe has no waiters, like the place it takes. -/
theorem newPipe_passes (s : Store) :
    Passes s [] ((s.grant .pipe).setPipe s.next Pipe.fresh) := by
  have hpipes : PipeRoom s →
      ((s.grant .pipe).setPipe s.next Pipe.fresh).pipes = s.pipes := by
    intro hroom
    rw [← hroom.unborn s.next (Nat.le_refl _)]
    exact Function.update_eq_self _ _
  refine ⟨Nat.le_succ _, fun hroom =>
    ⟨fun e => Nat.lt_succ_of_lt (hroom.ends e), ?_⟩, fun hroom => ?_⟩
  · rw [hpipes hroom]
    exact fun q hq => hroom.unborn q (Nat.le_of_succ_le hq)
  · rw [hpipes hroom]
    exact fun q => .refl _ _

theorem setEnd_passes {e : Ref} {pipeEnd : PipeEnd}
    (hpipe : pipeEnd.pipe < s.next) : Passes s [] (s.setEnd e pipeEnd) := by
  refine ⟨Nat.le_refl _, fun hroom => ⟨fun d => ?_, hroom.unborn⟩,
    fun _ p => .refl _ _⟩
  by_cases hd : d = e
  · subst hd
    simpa only [Store.setEnd, Function.update_self] using hpipe
  · simpa only [Store.setEnd, Function.update_of_ne hd] using hroom.ends d

theorem errFreeWv_aside (s : Store) (pipe rend rv wend wv : Ref) :
    Aside s (errFreeWv s pipe rend rv wend wv) := ⟨rfl, rfl, Nat.le_refl _⟩

theorem pipeInstall_passes (s : Store) (table : FdTable)
    (pipe rend rv wend wv rf wf : Ref) :
    Passes s (pipeInstall s table pipe rend rv wend wv rf wf).woken
      (pipeInstall s table pipe rend rv wend wv rf wf).store := by
  unfold pipeInstall
  split
  · exact ((vfsClose_passes _ _).trans (vfsClose_passes _ _)).then_aside
      (errFreeWv_aside _ _ _ _ _ _)
  split
  · exact ((fdClose_passes _ _ _).trans (vfsClose_passes _ _)).then_aside
      (errFreeWv_aside _ _ _ _ _ _)
  · exact (Aside.refl s).passes []

theorem pipeOpenRead_passes (s : Store) (table : FdTable)
    (pipe rend rv wend wv : Ref) :
    Passes s (pipeOpenRead s table pipe rend rv wend wv).woken
      (pipeOpenRead s table pipe rend rv wend wv).store := by
  have hread := vfsOpenVnode_aside s (some rv) oRdonly
  unfold pipeOpenRead
  split
  · rename_i heq
    rw [heq] at hread
    exact (hread.trans (errFreeWv_aside _ _ _ _ _ _)).passes []
  · rename_i rf s₁ heq
    rw [heq] at hread
    have hwrite := vfsOpenVnode_aside s₁ (some wv) oWronly
    unfold pipeOpenWrite
    split
    · rename_i heq'
      rw [heq'] at hwrite
      exact (hread.trans hwrite).then_passes
        ((vfsClose_passes _ _).then_aside (errFreeWv_aside _ _ _ _ _ _))
    · rename_i heq'
      rw [heq'] at hwrite
      exact (hread.trans hwrite).then_passes (pipeInstall_passes _ _ _ _ _ _ _ _ _)

theorem freeList_aside (s : Store) (refs : List Ref) :
    Aside s (s.freeList refs) := by
  induction refs generalizing s with
  | nil => exact .refl s
  | cons ref rest ih => exact (kfree_aside s ref).trans (ih _)

theorem newEnd_passes {p : Ref} (hp : p < s.next) (isWrite : Bool) :
    Passes s [] ((s.grant .pipeEnd).setEnd s.next ⟨p, isWrite⟩) := by
  have hgrant : Aside s (s.grant .pipeEnd) := ⟨rfl, rfl, Nat.le_succ _⟩
  exact hgrant.then_passes (setEnd_passes (Nat.lt_succ_of_lt hp))

theorem newVnode_aside (s : Store) (v : Ref) (vnode : Vnode) :
    Aside s ((s.grant .vnode).setVnode v vnode) := ⟨rfl, rfl, Nat.le_succ _⟩

theorem pipeStage_passes (s : Store) {n : Nat} (hn : n ≤ 5) :
    Passes s [] (pipeStage s n) := by
  induction n with
  | zero => exact (Aside.refl s).passes []
  | succ n ih =>
      have hstep : Passes (pipeStage s n) [] (pipeStage s (n + 1)) := by
        have hcases : n = 0 ∨ n = 1 ∨ n = 2 ∨ n = 3 ∨ n = 4 := by omega
        rcases hcases with rfl | rfl | rfl | rfl | rfl
        · exact newPipe_passes s
        · exact @newEnd_passes (pipeStage s 1) s.next (Nat.lt_succ_self _) false
        · exact (newVnode_aside (pipeStage s 2) _ _).passes []
        · exact @newEnd_passes (pipeStage s 3) s.next
            (show s.next < s.next + 3 by omega) true
        · exact (newVnode_aside (pipeStage s 4) _ _).passes []
      exact (ih (Nat.le_of_succ_le hn)).trans hstep

theorem pipeCreate_passes (s : Store) (table : FdTable) :
    Passes s (pipeCreate s table).woken (pipeCreate s table).store := by
  rcases pipeCreate_cases s table with ⟨n, hn, -, heq⟩ | ⟨-, heq⟩
  · rw [heq]
    have hrefuse : Aside (pipeStage s n) (pipeStage s n).refuse :=
      ⟨rfl, rfl, Nat.le_refl _⟩
    exact (pipeStage_passes s (Nat.le_of_lt hn)).then_aside
      (hrefuse.trans (freeList_aside _ _))
  · rw [heq]
    exact (pipeStage_passes s (Nat.le_refl 5)).trans
      (pipeOpenRead_passes _ _ _ _ _ _ _)

end Creation

end Orion
