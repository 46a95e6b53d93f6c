/-
A pipe is a FIFO byte channel.  Any number of calls share one pipe; a call is
interrupted only while it sleeps in `pipe_block`, and may be woken there at
any time.  Whatever the interleaving, the bytes delivered so far followed by
the bytes buffered are the bytes taken so far.
-/
import Orion.Machine
import Orion.Pipe

namespace Orion

open MachineInt

/-- The bytes buffered, from `head` on. -/
def Pipe.contents (pipe : Pipe) : List UInt8 :=
  RingBuffer.contents pipeBufsz pipe.buf pipe.head pipe.count

/-- The indices of a pipe are in range. -/
structure PipeInRange (pipe : Pipe) : Prop where
  head_lt : pipe.head < pipeBufsz
  count_le : pipe.count ≤ pipeBufsz

section Peers

variable (pipe : Pipe)

@[simp] theorem pipeWakePeer_contents (wokeByWrite : Bool) :
    (pipeWakePeer pipe wokeByWrite).2.contents = pipe.contents := by
  simp only [pipeWakePeer]
  split_ifs <;> rfl

theorem PipeInRange.wakePeer {pipe : Pipe} (hpipe : PipeInRange pipe)
    (wokeByWrite : Bool) : PipeInRange (pipeWakePeer pipe wokeByWrite).2 := by
  simp only [pipeWakePeer]
  split_ifs <;> exact ⟨hpipe.head_lt, hpipe.count_le⟩

@[simp] theorem pipeBlock_contents (isWrite : Bool) (pid : Nat) :
    (pipeBlock pipe isWrite pid).contents = pipe.contents := by
  cases isWrite <;> rfl

theorem PipeInRange.block {pipe : Pipe} (hpipe : PipeInRange pipe)
    (isWrite : Bool) (pid : Nat) : PipeInRange (pipeBlock pipe isWrite pid) := by
  cases isWrite <;> exact ⟨hpipe.head_lt, hpipe.count_le⟩

end Peers

section Segments

variable {call : PipeCall} {len : Nat}

/-- Between two points of a read bytes only moved from the front of the buffer
to the end of the data. -/
structure Delivers (call call' : PipeCall) : Prop where
  order : call'.data ++ call'.pipe.contents = call.data ++ call.pipe.contents
  inRange : PipeInRange call'.pipe

theorem readBatch_delivers {batch : Nat} (hpipe : PipeInRange call.pipe)
    (hbatch : batch ≤ call.pipe.count) :
    Delivers call (readBatch call batch) := by
  constructor
  · simp only [readBatch, pipeWakePeer_contents, List.append_assoc]
    congr 1
    exact (RingBuffer.contents_eq_copyOut call.pipe.buf hpipe.head_lt
      hbatch).symm
  · apply PipeInRange.wakePeer
    constructor
    · exact RingBuffer.copyOut_head_lt call.pipe.buf batch hpipe.head_lt
    · exact Nat.le_trans (Nat.sub_le _ _) hpipe.count_le

theorem pipeReadLoop_delivers (len fuel : Nat) (hpipe : PipeInRange call.pipe) :
    Delivers call (pipeReadLoop len fuel call).2 := by
  induction fuel generalizing call with
  | zero => exact ⟨rfl, hpipe⟩
  | succ fuel ih =>
      rw [pipeReadLoop]
      split_ifs with hmore hempty heof
      · exact ⟨rfl, hpipe⟩
      · exact ⟨rfl, hpipe⟩
      · have hbatch :=
          readBatch_delivers hpipe (Nat.min_le_right (len - call.moved) _)
        have hrest := ih hbatch.inRange
        exact ⟨hrest.order.trans hbatch.order, hrest.inRange⟩
      · exact ⟨rfl, hpipe⟩

/-- The fuel of a read is never used up: every batch moves a byte. -/
theorem pipeReadLoop_ends {fuel : Nat} (hfuel : len - call.moved < fuel) :
    (pipeReadLoop len fuel call).1 ≠ .endless := by
  induction fuel generalizing call with
  | zero => omega
  | succ fuel ih =>
      rw [pipeReadLoop]
      split_ifs with hmore hempty heof
      · simp
      · simp
      · apply ih
        simp only [readBatch]
        omega
      · simp

/-- Between two points of a write the same bytes went into the data and onto
the end of the buffer. -/
def Appends (call call' : PipeCall) : Prop :=
  ∃ taken, call'.data = call.data ++ taken ∧
    call'.pipe.contents = call.pipe.contents ++ taken ∧ PipeInRange call'.pipe

theorem Appends.refl (hpipe : PipeInRange call.pipe) : Appends call call :=
  ⟨[], by simp, by simp, hpipe⟩

theorem Appends.trans {call' call'' : PipeCall} (hfirst : Appends call call')
    (hsecond : Appends call' call'') : Appends call call'' := by
  obtain ⟨taken, hdata, hcontents, _⟩ := hfirst
  obtain ⟨more, hdata', hcontents', hpipe⟩ := hsecond
  refine ⟨taken ++ more, ?_, ?_, hpipe⟩
  · rw [hdata', hdata, List.append_assoc]
  · rw [hcontents', hcontents, List.append_assoc]

theorem Appends.inRange {call' : PipeCall} (happends : Appends call call') :
    PipeInRange call'.pipe := by
  obtain ⟨_, _, _, hpipe⟩ := happends
  exact hpipe

theorem writeBatch_appends (len : Nat) (src : Nat → UInt8)
    (hpipe : PipeInRange call.pipe) :
    Appends call (writeBatch len src call) := by
  have hcount := hpipe.count_le
  refine ⟨_, rfl, ?_, ?_⟩
  · simp only [writeBatch, pipeWakePeer_contents]
    have hcopy := @RingBuffer.contents_copyIn _ pipeBufsz call.pipe.head
      call.pipe.count call.pipe.buf
      ((List.range (min (len - call.moved) (pipeBufsz - call.pipe.count))).map
        fun i => src (call.moved + i)) (by simp; omega)
    simpa [Pipe.contents] using hcopy
  · apply PipeInRange.wakePeer
    refine ⟨hpipe.head_lt, ?_⟩
    simp only
    omega

theorem pipeWriteLoop_appends (len fuel : Nat) (src : Nat → UInt8)
    (hpipe : PipeInRange call.pipe) :
    Appends call (pipeWriteLoop len src fuel call).2 := by
  induction fuel generalizing call with
  | zero => exact Appends.refl hpipe
  | succ fuel ih =>
      rw [pipeWriteLoop]
      split_ifs with hmore hbroken hfull
      · exact Appends.refl hpipe
      · exact Appends.refl hpipe
      · have hbatch := writeBatch_appends len src hpipe
        exact hbatch.trans (ih hbatch.inRange)
      · exact Appends.refl hpipe

/-- The fuel of a write is never used up either. -/
theorem pipeWriteLoop_ends {fuel : Nat} (src : Nat → UInt8)
    (hpipe : PipeInRange call.pipe) (hfuel : len - call.moved < fuel) :
    (pipeWriteLoop len src fuel call).1 ≠ .endless := by
  induction fuel generalizing call with
  | zero => omega
  | succ fuel ih =>
      rw [pipeWriteLoop]
      split_ifs with hmore hbroken hfull
      · simp
      · simp
      · apply ih (writeBatch_appends len src hpipe).inRange
        have hcount := hpipe.count_le
        simp only [writeBatch]
        omega
      · simp

theorem pipeWriteResume_appends (len : Nat) (src : Nat → UInt8)
    (hpipe : PipeInRange call.pipe) :
    Appends call (pipeWriteResume len src call).2 := by
  rw [pipeWriteResume]
  split_ifs with hfull hbroken
  · exact Appends.refl hpipe
  · exact Appends.refl hpipe
  · have hbatch := writeBatch_appends len src hpipe
    exact hbatch.trans (pipeWriteLoop_appends len _ src hbatch.inRange)

theorem pipeWriteResume_ends (len : Nat) (src : Nat → UInt8)
    (hpipe : PipeInRange call.pipe) :
    (pipeWriteResume len src call).1 ≠ .endless := by
  rw [pipeWriteResume]
  split_ifs with hfull hbroken
  · simp
  · simp
  · exact pipeWriteLoop_ends src (writeBatch_appends len src hpipe).inRange
      (Nat.lt_succ_self _)

end Segments

/-- A call that sleeps in `pipe_block`. -/
structure Sleeper where
  isWrite : Bool
  pid : Nat
  len : Nat
  moved : Nat

/-- A pipe, the calls that sleep on it, and the bytes taken from writers and
delivered to readers so far. -/
structure PipeSystem where
  pipe : Pipe
  sleeping : Nat → Option Sleeper
  taken : List UInt8
  delivered : List UInt8

/-- What the processes that share the pipe do.  A call is named by a number; a
write brings along what its buffer holds at that moment. -/
inductive PipeEvent where
  | read (id pid len : Nat)
  | write (id pid len : Nat) (src : Nat → UInt8)
  | resume (id : Nat) (src : Nat → UInt8)
  | closeRead
  | closeWrite

def PipeSystem.fresh : PipeSystem := ⟨Pipe.fresh, fun _ => none, [], []⟩

/-- Book the segment that call `id` has run. -/
def PipeSystem.settle (sys : PipeSystem) (id : Nat) (isWrite : Bool)
    (pid len : Nat) (segment : PipeExit × PipeCall) : Option PipeSystem :=
  let call := segment.2
  let sys := { sys with
    taken := if isWrite then sys.taken ++ call.data else sys.taken
    delivered := if isWrite then sys.delivered else sys.delivered ++ call.data }
  match segment.1 with
  | .endless => none
  | .done _ => some { sys with
      pipe := call.pipe
      sleeping := Function.update sys.sleeping id none }
  | .block => some { sys with
      pipe := pipeBlock call.pipe isWrite pid
      sleeping := Function.update sys.sleeping id
        (some ⟨isWrite, pid, len, call.moved⟩) }

def PipeSystem.step (sys : PipeSystem) : PipeEvent → Option PipeSystem
  | .read id pid len =>
      if (sys.sleeping id).isNone then
        sys.settle id false pid len (pipeReadOp len (.enter sys.pipe 0))
      else none
  | .write id pid len src =>
      if (sys.sleeping id).isNone then
        sys.settle id true pid len (pipeWriteOp len src (.enter sys.pipe 0))
      else none
  | .resume id src =>
      match sys.sleeping id with
      | none => none
      | some call =>
          let entered := PipeCall.enter sys.pipe call.moved
          if call.isWrite then
            sys.settle id true call.pid call.len
              (pipeWriteResume call.len src entered)
          else
            sys.settle id false call.pid call.len (pipeReadOp call.len entered)
  | .closeRead => some { sys with pipe := (pipeCloseReadEnd sys.pipe).2 }
  | .closeWrite => some { sys with pipe := (pipeCloseWriteEnd sys.pipe).2 }

/-- Nothing is lost, duplicated or reordered. -/
structure PipeSystem.Fifo (sys : PipeSystem) : Prop where
  inRange : PipeInRange sys.pipe
  order : sys.delivered ++ sys.pipe.contents = sys.taken

section Steps

variable {sys next : PipeSystem} {id pid len moved : Nat}

/-- Booking a segment changes neither the contents of the pipe nor anything
but the log of its direction. -/
theorem PipeSystem.settle_eq_some {isWrite : Bool}
    {segment : PipeExit × PipeCall}
    (hsettle : sys.settle id isWrite pid len segment = some next) :
    next.pipe.contents = segment.2.pipe.contents ∧
      (PipeInRange segment.2.pipe → PipeInRange next.pipe) ∧
      next.taken = (if isWrite then sys.taken ++ segment.2.data
        else sys.taken) ∧
      next.delivered = (if isWrite then sys.delivered
        else sys.delivered ++ segment.2.data) := by
  rcases segment with ⟨_ | _ | _, call⟩
  · cases hsettle
    exact ⟨rfl, fun hpipe => hpipe, rfl, rfl⟩
  · cases hsettle
    exact ⟨pipeBlock_contents _ _ _, fun hpipe => hpipe.block _ _, rfl, rfl⟩
  · cases hsettle

theorem PipeSystem.Fifo.settle_read (hfifo : sys.Fifo)
    (hsettle : sys.settle id false pid len
      (pipeReadOp len (.enter sys.pipe moved)) = some next) : next.Fifo := by
  obtain ⟨hcontents, hrange, htaken, hdelivered⟩ :=
    PipeSystem.settle_eq_some hsettle
  have hpipe : PipeInRange (PipeCall.enter sys.pipe moved).pipe := hfifo.inRange
  have hread := pipeReadLoop_delivers len (pipeFuel len moved) hpipe
  have horder := hread.order
  simp only [PipeCall.enter, List.nil_append] at horder
  refine ⟨hrange hread.inRange, ?_⟩
  simp only [Bool.false_eq_true, ↓reduceIte] at htaken hdelivered
  rw [hdelivered, hcontents, htaken, List.append_assoc, ← hfifo.order]
  congr 1

theorem PipeSystem.Fifo.settle_write {segment : PipeExit × PipeCall}
    (hfifo : sys.Fifo)
    (happends : Appends (.enter sys.pipe moved) segment.2)
    (hsettle : sys.settle id true pid len segment = some next) : next.Fifo := by
  obtain ⟨hcontents, hrange, htaken, hdelivered⟩ :=
    PipeSystem.settle_eq_some hsettle
  obtain ⟨taken, hdata, hbuffered, hpipe⟩ := happends
  simp only [PipeCall.enter, List.nil_append] at hdata hbuffered
  simp only [↓reduceIte] at htaken hdelivered
  refine ⟨hrange hpipe, ?_⟩
  rw [hdelivered, hcontents, htaken, hbuffered, hdata, ← List.append_assoc,
    hfifo.order]

theorem pipeClose_keeps (pipe : Pipe) (hpipe : PipeInRange pipe) :
    ((pipeCloseReadEnd pipe).2.contents = pipe.contents ∧
      PipeInRange (pipeCloseReadEnd pipe).2) ∧
    (pipeCloseWriteEnd pipe).2.contents = pipe.contents ∧
      PipeInRange (pipeCloseWriteEnd pipe).2 := by
  have hread : PipeInRange { pipe with readers := pipe.readers - 1 } :=
    ⟨hpipe.head_lt, hpipe.count_le⟩
  have hwrite : PipeInRange { pipe with writers := pipe.writers - 1 } :=
    ⟨hpipe.head_lt, hpipe.count_le⟩
  simp only [pipeCloseReadEnd, pipeCloseWriteEnd]
  constructor
  · split_ifs
    · exact ⟨pipeWakePeer_contents _ _, hread.wakePeer _⟩
    · exact ⟨rfl, hread⟩
  · split_ifs
    · exact ⟨pipeWakePeer_contents _ _, hwrite.wakePeer _⟩
    · exact ⟨rfl, hwrite⟩

theorem PipeSystem.Fifo.step {event : PipeEvent} (hfifo : sys.Fifo)
    (hstep : sys.step event = some next) : next.Fifo := by
  have hclose := pipeClose_keeps sys.pipe hfifo.inRange
  cases event with
  | read id pid len =>
      simp only [PipeSystem.step] at hstep
      split_ifs at hstep
      exact hfifo.settle_read hstep
  | write id pid len src =>
      simp only [PipeSystem.step] at hstep
      split_ifs at hstep
      have hpipe : PipeInRange (PipeCall.enter sys.pipe 0).pipe := hfifo.inRange
      exact hfifo.settle_write (pipeWriteLoop_appends len _ src hpipe) hstep
  | resume id src =>
      simp only [PipeSystem.step] at hstep
      cases hcall : sys.sleeping id with
      | none => simp [hcall] at hstep
      | some call =>
          simp only [hcall] at hstep
          have hpipe : PipeInRange (PipeCall.enter sys.pipe call.moved).pipe :=
            hfifo.inRange
          split_ifs at hstep
          · exact hfifo.settle_write
              (pipeWriteResume_appends call.len src hpipe) hstep
          · exact hfifo.settle_read hstep
  | closeRead =>
      cases hstep
      exact ⟨hclose.1.2, by rw [hclose.1.1]; exact hfifo.order⟩
  | closeWrite =>
      cases hstep
      exact ⟨hclose.2.2, by rw [hclose.2.1]; exact hfifo.order⟩

end Steps

namespace PipeFifoWitness

/-- A reader that has to wait, a writer that serves it and leaves two bytes
behind, and a second reader that takes one of them. -/
def events : List PipeEvent :=
  [.read 0 2 3, .write 1 3 5 (fun i => UInt8.ofNat (i + 10)),
    .resume 0 (fun _ => 0), .read 2 4 1]

end PipeFifoWitness

end Orion
