/-
Anonymous pipes.  A read or write runs until it returns or has to sleep in
`pipe_block`; what it does in between is one uninterrupted segment.  The
functions here act on the shared `pipe_t` alone and report which processes
they wake.
-/
import Orion.MachineInt
import Orion.RingBuffer

namespace Orion

open MachineInt

def pipeBufsz : Nat := 4096

/-- `PIPE_NO_WAITER`: nobody sleeps on this end. -/
def pipeNoWaiter : Nat := 0xFFFF

structure Pipe where
  buf : Nat → UInt8
  head : Nat
  count : Nat
  readers : Nat
  writers : Nat
  blockedReader : Nat
  blockedWriter : Nat

/-- The pipe that `pipe_create` sets up. -/
def Pipe.fresh : Pipe where
  buf := fun _ => 0
  head := 0
  count := 0
  readers := 1
  writers := 1
  blockedReader := pipeNoWaiter
  blockedWriter := pipeNoWaiter

/-- Record the process that goes to sleep on the pipe. -/
def pipeBlock (pipe : Pipe) (isWrite : Bool) (pid : Nat) : Pipe :=
  if isWrite then { pipe with blockedWriter := pid }
  else { pipe with blockedReader := pid }

/-- Forget the process that sleeps on the opposite end and report it. -/
def pipeWakePeer (pipe : Pipe) (wokeByWrite : Bool) : List Nat × Pipe :=
  let peer := if wokeByWrite then pipe.blockedReader else pipe.blockedWriter
  if peer = pipeNoWaiter then ([], pipe)
  else if wokeByWrite then ([peer], { pipe with blockedReader := pipeNoWaiter })
  else ([peer], { pipe with blockedWriter := pipeNoWaiter })

/-- A call in progress: the pipe, how much has been transferred since the call
began, and the bytes and wake-ups of the current segment. -/
structure PipeCall where
  pipe : Pipe
  moved : Nat
  data : List UInt8
  woken : List Nat

/-- How a segment ends. -/
inductive PipeExit where
  /-- the call returns -/
  | done (value : Int)
  /-- the call sleeps in `pipe_block` -/
  | block
  | endless
  deriving DecidableEq, Repr

/-- The calling process enters the pipe operation or comes back from
`pipe_block` with `moved` bytes transferred. -/
def PipeCall.enter (pipe : Pipe) (moved : Nat) : PipeCall :=
  ⟨pipe, moved, [], []⟩

/-- Copy `batch` bytes out of the ring and wake a blocked writer. -/
def readBatch (call : PipeCall) (batch : Nat) : PipeCall :=
  let copied := RingBuffer.copyOut pipeBufsz call.pipe.buf batch call.pipe.head
  let pipe := { call.pipe with
    head := copied.2
    count := call.pipe.count - batch }
  { pipe := (pipeWakePeer pipe false).2
    moved := call.moved + batch
    data := call.data ++ copied.1
    woken := call.woken ++ (pipeWakePeer pipe false).1 }

/-- The loop of `pipe_read_op` for a request of `len` bytes. -/
def pipeReadLoop (len : Nat) : Nat → PipeCall → PipeExit × PipeCall
  | 0, call => (.endless, call)
  | fuel + 1, call =>
      if call.moved < len then
        if call.pipe.count = 0 then
          if call.pipe.writers = 0 then (.done (i32 call.moved), call)
          else (.block, call)
        else
          pipeReadLoop len fuel
            (readBatch call (min (len - call.moved) call.pipe.count))
      else (.done (i32 call.moved), call)

/-- Copy a batch of the bytes `src` into the ring and wake a blocked reader. -/
def writeBatch (len : Nat) (src : Nat → UInt8) (call : PipeCall) : PipeCall :=
  let space := pipeBufsz - call.pipe.count
  let batch := min (len - call.moved) space
  let taken := (List.range batch).map fun i => src (call.moved + i)
  let tail := (call.pipe.head + call.pipe.count) % pipeBufsz
  let pipe := { call.pipe with
    buf := RingBuffer.copyIn pipeBufsz call.pipe.buf tail taken
    count := call.pipe.count + batch }
  { pipe := (pipeWakePeer pipe true).2
    moved := call.moved + batch
    data := call.data ++ taken
    woken := call.woken ++ (pipeWakePeer pipe true).1 }

/-- The loop of `pipe_write_op`.  A full pipe with readers makes the caller
sleep. -/
def pipeWriteLoop (len : Nat) (src : Nat → UInt8) :
    Nat → PipeCall → PipeExit × PipeCall
  | 0, call => (.endless, call)
  | fuel + 1, call =>
      if call.moved < len then
        if call.pipe.readers = 0 then (.done (-1), call)
        else if call.pipe.count = pipeBufsz then (.block, call)
        else pipeWriteLoop len src fuel (writeBatch len src call)
      else (.done (i32 call.moved), call)

/-- One round of the outer loop of a call needs at most one round of fuel for
each byte that is left. -/
def pipeFuel (len moved : Nat) : Nat := len - moved + 1

def pipeReadOp (len : Nat) (call : PipeCall) : PipeExit × PipeCall :=
  pipeReadLoop len (pipeFuel len call.moved) call

def pipeWriteOp (len : Nat) (src : Nat → UInt8) (call : PipeCall) :
    PipeExit × PipeCall :=
  pipeWriteLoop len src (pipeFuel len call.moved) call

/-- A writer that wakes up goes on in the inner loop: it looks for readers only
while the pipe is still full. -/
def pipeWriteResume (len : Nat) (src : Nat → UInt8) (call : PipeCall) :
    PipeExit × PipeCall :=
  if call.pipe.count = pipeBufsz then
    if call.pipe.readers = 0 then (.done (-1), call) else (.block, call)
  else
    let call := writeBatch len src call
    pipeWriteLoop len src (pipeFuel len call.moved) call

/-- What closing the last reference to the read end does to the pipe. -/
def pipeCloseReadEnd (pipe : Pipe) : List Nat × Pipe :=
  let pipe := { pipe with readers := pipe.readers - 1 }
  if pipe.readers = 0 then pipeWakePeer pipe false else ([], pipe)

def pipeCloseWriteEnd (pipe : Pipe) : List Nat × Pipe :=
  let pipe := { pipe with writers := pipe.writers - 1 }
  if pipe.writers = 0 then pipeWakePeer pipe true else ([], pipe)

end Orion
